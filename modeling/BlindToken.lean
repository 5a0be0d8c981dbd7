import BlindToken.Header.ChallengeField
import BlindToken.Header.TokenField
import BlindToken.Issuance.Request
import BlindToken.Key.Private
import BlindToken.Proofs.Base64
import BlindToken.Proofs.Base64.Acceptance
import BlindToken.Proofs.Bytes
import BlindToken.Proofs.Bytes.Format
import BlindToken.Proofs.Bytes.Wire
import BlindToken.Proofs.Der
import BlindToken.Proofs.Der.Form
import BlindToken.Proofs.Directory
import BlindToken.Proofs.Directory.RoundTrip
import BlindToken.Proofs.Except
import BlindToken.Proofs.Header.ChallengeField
import BlindToken.Proofs.Header.Grammar
import BlindToken.Proofs.Header.Parameter
import BlindToken.Proofs.Header.RoundTrip
import BlindToken.Proofs.Header.TokenField
import BlindToken.Proofs.Issuance.Answer
import BlindToken.Proofs.Issuance.Blindness
import BlindToken.Proofs.Issuance.Finalization
import BlindToken.Proofs.Issuance.KeySize
import BlindToken.Proofs.Issuance.Publication
import BlindToken.Proofs.Issuance.Redemption
import BlindToken.Proofs.Issuance.Request
import BlindToken.Proofs.Issuance.Token
import BlindToken.Proofs.Json.Lexeme
import BlindToken.Proofs.Json.Value
import BlindToken.Proofs.Key.Conversion
import BlindToken.Proofs.Key.Envelope
import BlindToken.Proofs.Key.Export
import BlindToken.Proofs.Key.Modulus
import BlindToken.Proofs.Key.Pem
import BlindToken.Proofs.Key.Private
import BlindToken.Proofs.Key.Public
import BlindToken.Proofs.Key.Spki
import BlindToken.Proofs.Messages
import BlindToken.Proofs.Number
import BlindToken.Proofs.Random.Replay
import BlindToken.Proofs.Redemption.Accounting
import BlindToken.Proofs.Redemption.Exclusive
import BlindToken.Proofs.Redemption.Forgery
import BlindToken.Proofs.Redemption.Genuine
import BlindToken.Proofs.Redemption.History
import BlindToken.Proofs.Redemption.Mark
import BlindToken.Proofs.Redemption.Recovery
import BlindToken.Proofs.Redemption.Sequence
import BlindToken.Proofs.Redemption.Tally
import BlindToken.Proofs.Rsa.Blinding
import BlindToken.Proofs.Rsa.Key
import BlindToken.Proofs.Rsa.Pss
import BlindToken.Proofs.Table
import BlindToken.Proofs.Text
import BlindToken.Proofs.Tier.Directory
import BlindToken.Proofs.Tier.Generation
import BlindToken.Proofs.Tier.Issuance
import BlindToken.Proofs.Tier.Listing
import BlindToken.Proofs.Tier.Registry
import BlindToken.Proofs.Tier.Routing
import BlindToken.Proofs.Token
import BlindToken.Proofs.TokenChallenge
import BlindToken.Proofs.TokenChallenge.Construction
import BlindToken.Random.Replay
import BlindToken.Redemption.Schedule
import BlindToken.Tier.Issuers
import BlindToken.Tier.Router
