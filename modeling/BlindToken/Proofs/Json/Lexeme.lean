import Mathlib.Data.List.Basic
import BlindToken.Json.Lexeme
import BlindToken.Json.Value
import BlindToken.Proofs.Text

namespace BlindToken.Json

namespace Piece

-- The piece stands for the character. Only control characters are written as units of UTF-16.
inductive StandsFor : Char → Piece → Prop where
  | char (value : Char) : StandsFor value (.char value)
  | control (value : Char) (below : value.toNat < 0x20) : StandsFor value (.unit value.toNat)

-- A unit that is no half of a surrogate pair is a character alone.
theorem joined?_unit {unit : Nat} (hbelow : unit < 0xd800) (done : List Char)
    (rest : List Piece) : joined? done (.unit unit :: rest) =
      joined? (Char.ofNat unit :: done) rest := by
  have hhigh : isHigh unit = false := by
    rw [isHigh, Bool.and_eq_false_iff, decide_eq_false_iff_not]
    omega
  have hlow : isLow unit = false := by
    rw [isLow, Bool.and_eq_false_iff, decide_eq_false_iff_not]
    omega
  cases rest with
  | nil => simp [joined?, hhigh, hlow]
  | cons next rest => cases next <;> simp [joined?, hhigh, hlow]

theorem joined?_eq {content : List Char} {pieces : List Piece}
    (hpieces : List.Forall₂ StandsFor content pieces) (done : List Char) :
    joined? done pieces = some (String.ofList (done.reverse ++ content)) := by
  induction hpieces generalizing done with
  | nil => simp [joined?]
  | cons hpiece _ ih =>
    cases hpiece with
    | char => rw [joined?, ih, List.reverse_cons, List.append_assoc, List.singleton_append]
    | control below =>
      rw [joined?_unit (by omega), ih, Char.ofNat_toNat, List.reverse_cons, List.append_assoc,
        List.singleton_append]

end Piece

theorem unit?_control :
    ∀ value < 0x20, unit? ['0', '0', hexDigit (value / 16), hexDigit (value % 16)] = some value := by
  decide

theorem pieces?_plain {char : Char} (hquote : char ≠ '"') (hbackslash : char ≠ '\\')
    (hcontrol : ¬char < ' ') (done : List Piece) (rest : List Char) :
    pieces? done (char :: rest) = pieces? (.char char :: done) rest := by
  rw [pieces?.eq_def]
  split
  case h_5 heq =>
    obtain ⟨rfl, rfl⟩ := List.cons.inj heq
    exact if_neg hcontrol
  all_goals simp_all

-- Each character is one piece, in whichever way it is escaped.
theorem exists_pieces?_escaped (char : Char) :
    ∃ piece, Piece.StandsFor char piece ∧ ∀ done rest,
      pieces? done (escaped char ++ rest) = pieces? (piece :: done) rest := by
  unfold escaped
  split
  case h_8 hquote hbackslash _ _ _ _ _ =>
    split
    · rename_i hcontrol
      have hbelow : char.toNat < 0x20 := hcontrol
      refine ⟨.unit char.toNat, .control char hbelow, fun done rest => ?_⟩
      simp [pieces?, unit?_control char.toNat hbelow]
    · rename_i hcontrol
      exact ⟨.char char, .char char, pieces?_plain hquote hbackslash hcontrol⟩
  all_goals exact ⟨.char _, .char _, fun done rest => rfl⟩

theorem exists_pieces? (content rest : List Char) :
    ∃ pieces, List.Forall₂ Piece.StandsFor content pieces ∧ ∀ done,
      pieces? done (content.flatMap escaped ++ '"' :: rest) = some (done.reverse ++ pieces, rest) := by
  induction content with
  | nil => exact ⟨[], .nil, fun done => by simp [pieces?]⟩
  | cons char content ih =>
    obtain ⟨piece, hpiece, hread⟩ := exists_pieces?_escaped char
    obtain ⟨pieces, hpieces, hrest⟩ := ih
    refine ⟨piece :: pieces, .cons hpiece hpieces, fun done => ?_⟩
    rw [List.flatMap_cons, List.append_assoc, hread, hrest, List.reverse_cons, List.append_assoc,
      List.singleton_append]

theorem read?_quoted (content : String) (rest : List Char) :
    Lexeme.read? (quoted content ++ rest) = some (.text (some content), rest) := by
  obtain ⟨pieces, hpieces, hread⟩ := exists_pieces? content.toList rest
  have hjoined := Piece.joined?_eq hpieces []
  rw [List.reverse_nil, List.nil_append, String.ofList_toList] at hjoined
  simp only [quoted, List.cons_append, List.append_assoc]
  simp [Lexeme.read?, hread, hjoined]

-- Only zero is written with a zero in front.
theorem head?_toDigits {value : Nat} (hpos : 0 < value) :
    (Nat.toDigits 10 value).head? ≠ some '0' := by
  induction value using Nat.strongRecOn with
  | ind value ih =>
    rcases Nat.lt_or_ge value 10 with hlt | hge
    · have hdigit : ∀ digit < 10, 0 < digit → digit.digitChar ≠ '0' := by decide
      rw [Nat.toDigits_of_lt_base hlt]
      simpa using hdigit value hlt hpos
    · rw [Nat.toDigits_of_base_le (by decide) hge,
        List.head?_append_of_ne_nil _ Nat.toDigits_ne_nil]
      exact ih (value / 10) (by omega) (by omega)

-- What follows is not taken for a part of a number.
def EndsNumber (rest : List Char) : Prop :=
  ∀ next ∈ rest.head?, next.isDigit = false ∧ next ≠ '.' ∧ next ≠ 'e' ∧ next ≠ 'E'

theorem EndsNumber.hasTail_eq {rest : List Char} (h : EndsNumber rest) : hasTail rest = false := by
  cases rest with
  | nil => rfl
  | cons next rest =>
    obtain ⟨-, hpoint, hlower, hupper⟩ := h next rfl
    unfold hasTail
    split <;> simp_all

theorem natural?_natural (value : Nat) {rest : List Char} (hrest : EndsNumber rest) :
    natural? (natural value ++ rest) = some (natural value, rest) := by
  have hdigits : ∀ char ∈ natural value, char.isDigit :=
    fun _ => Nat.isDigit_of_mem_toDigits (by decide) (by decide)
  have hstop : ∀ next ∈ rest.head?, next.isDigit = false := fun next hnext => (hrest next hnext).1
  have hread : digits? (natural value ++ rest) = some (natural value, rest) := by
    rw [digits?, takeWhile_append_stop hdigits hstop, dropWhile_append_stop hdigits hstop]
    split
    · rename_i hempty
      exact absurd hempty Nat.toDigits_ne_nil
    · rfl
  have hzero : ¬((natural value).head? = some '0' ∧ natural value ≠ ['0']) := by
    rintro ⟨hhead, hne⟩
    rcases Nat.eq_zero_or_pos value with rfl | hpos
    · exact hne rfl
    · exact head?_toDigits hpos hhead
  simp only [natural?, hread, hzero, if_false]

theorem read?_of_isDigit {char : Char} (hdigit : char.isDigit) (rest : List Char) :
    Lexeme.read? (char :: rest) =
      (number? (char :: rest)).bind fun result => some (.number result.1, result.2) := by
  unfold Lexeme.read?
  split
  case h_11 => rfl
  all_goals simp_all

theorem read?_natural (value : Nat) {rest : List Char} (hrest : EndsNumber rest) :
    Lexeme.read? (natural value ++ rest) = some (.number (some value), rest) := by
  obtain ⟨first, digits, hnatural⟩ := List.exists_cons_of_ne_nil
    (Nat.toDigits_ne_nil (b := 10) (n := value))
  have hfirst : first.isDigit :=
    Nat.isDigit_of_mem_toDigits (by decide) (by decide) (hnatural ▸ List.mem_cons_self)
  have hread := natural?_natural value hrest
  rw [natural, hnatural, List.cons_append] at hread ⊢
  rw [read?_of_isDigit hfirst, number?.eq_def]
  split
  · simp_all
  · simp [hread, hrest.hasTail_eq, ← hnatural, Nat.ofDigitChars_ten_toDigits]

end BlindToken.Json
