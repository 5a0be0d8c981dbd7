import BlindToken.Proofs.Base64
import BlindToken.Proofs.Text

namespace BlindToken.Base64

section Groups

variable {alphabet : Alphabet} {char : Char} {value : Nat}

theorem Alphabet.symbol_of_value? (h : alphabet.value? char = some value) :
    value < 64 ∧ alphabet.symbol value = char := by
  unfold value? at h
  split at h
  · rename_i hletter
    have hlower : 65 ≤ char.toNat := hletter.1
    have hupper : char.toNat ≤ 90 := hletter.2
    obtain rfl := Option.some.inj h
    refine ⟨by omega, ?_⟩
    rw [symbol, if_pos (by omega), Nat.add_sub_cancel' hlower, Char.ofNat_toNat]
  · split at h
    · rename_i hletter
      have hlower : 97 ≤ char.toNat := hletter.1
      have hupper : char.toNat ≤ 122 := hletter.2
      obtain rfl := Option.some.inj h
      refine ⟨by omega, ?_⟩
      rw [symbol, if_neg (by omega), if_pos (by omega), Nat.add_sub_cancel' (by omega),
        Char.ofNat_toNat]
    · split at h
      · rename_i hdigit
        have hlower : 48 ≤ char.toNat := hdigit.1
        have hupper : char.toNat ≤ 57 := hdigit.2
        obtain rfl := Option.some.inj h
        refine ⟨by omega, ?_⟩
        rw [symbol, if_neg (by omega), if_neg (by omega), if_pos (by omega), Nat.add_sub_cancel,
          Char.ofNat_toNat]
      · split at h
        · rename_i hsymbol
          obtain rfl := Option.some.inj h
          exact ⟨by decide, hsymbol.symm⟩
        · obtain ⟨hsymbol, hvalue⟩ := Option.ite_none_right_eq_some.mp h
          obtain rfl := Option.some.inj hvalue
          exact ⟨by decide, hsymbol.symm⟩

-- A text of symbols is written from their values.
theorem map_symbol_of_mapM {text : List Char} {read : List Nat}
    (h : text.mapM alphabet.value? = some read) :
    (∀ value ∈ read, value < 64) ∧ read.map alphabet.symbol = text := by
  rw [mapM_eq_some_iff] at h
  induction h with
  | nil => exact ⟨nofun, rfl⟩
  | cons hchar _ ih =>
    obtain ⟨hlt, hsymbol⟩ := Alphabet.symbol_of_value? hchar
    exact ⟨List.forall_mem_cons.mpr ⟨hlt, ih.1⟩, by rw [List.map_cons, hsymbol, ih.2]⟩

-- A group is read as one byte less than it has symbols, and no other group is read as these bytes.
theorem groupValues_of_groupBytes? {group : List Nat} {bytes : Bytes}
    (hlt : ∀ value ∈ group, value < 64) (h : groupBytes? group = some bytes) :
    groupValues bytes = group ∧ bytes.length + 1 = group.length := by
  unfold groupBytes? at h
  split at h
  · rename_i a b
    simp only [List.forall_mem_cons] at hlt
    obtain ⟨hunused, hbytes⟩ := Option.ite_none_right_eq_some.mp h
    obtain rfl := Option.some.inj hbytes
    have hfirst : a * 4 + b / 16 < 2 ^ 8 := by omega
    refine ⟨?_, rfl⟩
    rw [groupValues, UInt8.toNat_ofNat_of_lt' hfirst]
    congr 2 <;> omega
  · rename_i a b c
    simp only [List.forall_mem_cons] at hlt
    obtain ⟨hunused, hbytes⟩ := Option.ite_none_right_eq_some.mp h
    obtain rfl := Option.some.inj hbytes
    have hfirst : a * 4 + b / 16 < 2 ^ 8 := by omega
    have hsecond : b % 16 * 16 + c / 4 < 2 ^ 8 := by omega
    refine ⟨?_, rfl⟩
    rw [groupValues, UInt8.toNat_ofNat_of_lt' hfirst, UInt8.toNat_ofNat_of_lt' hsecond]
    congr 3 <;> omega
  · rename_i a b c d
    simp only [List.forall_mem_cons] at hlt
    obtain rfl := Option.some.inj h
    have hfirst : a * 4 + b / 16 < 2 ^ 8 := by omega
    have hsecond : b % 16 * 16 + c / 4 < 2 ^ 8 := by omega
    have hthird : c % 4 * 64 + d < 2 ^ 8 := by omega
    refine ⟨?_, rfl⟩
    rw [groupValues, UInt8.toNat_ofNat_of_lt' hfirst, UInt8.toNat_ofNat_of_lt' hsecond,
      UInt8.toNat_ofNat_of_lt' hthird]
    congr 4 <;> omega
  · cases h

theorem values_of_length_le {bytes : Bytes} (h : bytes.length ≤ 3) :
    values bytes = groupValues bytes := by
  match bytes with
  | [] => rfl
  | [_] => rfl
  | [_, _] => rfl
  | [_, _, _] => rfl

theorem values_append {group : Bytes} (h : group.length = 3) (rest : Bytes) :
    values (group ++ rest) = groupValues group ++ values rest := by
  match group with
  | [first, second, third] => exact values_three first second third rest

-- No two texts of symbols are read as the same bytes.
theorem values_of_groups {read : List Nat} {groups : List Bytes}
    (hlt : ∀ value ∈ read, value < 64)
    (h : List.Forall₂ (fun group bytes => groupBytes? group = some bytes) (chunks 4 read) groups) :
    values groups.flatten = read := by
  induction hlength : read.length using Nat.strongRecOn generalizing read groups with
  | ind length ih =>
    subst hlength
    by_cases hread : read = []
    · subst hread
      cases h
      rfl
    · rw [chunks_of_ne_nil (by decide) hread] at h
      obtain ⟨group, others, hgroup, hothers, rfl⟩ := List.forall₂_cons_left_iff.mp h
      obtain ⟨hvalues, hsize⟩ := groupValues_of_groupBytes?
        (fun value hvalue => hlt value (List.mem_of_mem_take hvalue)) hgroup
      have hpos := List.length_pos_iff.mpr hread
      have hrest : values others.flatten = read.drop 4 := by
        refine ih (read.drop 4).length ?_ ?_ hothers rfl
        · rw [List.length_drop]
          omega
        · exact fun value hvalue => hlt value (List.mem_of_mem_drop hvalue)
      rw [List.length_take] at hsize
      rw [List.flatten_cons]
      by_cases hfull : 4 ≤ read.length
      · rw [values_append (by omega), hvalues, hrest, List.take_append_drop]
      · have hend : read.drop 4 = [] := List.drop_of_length_le (by omega)
        rw [hend] at hothers
        cases hothers
        rw [List.flatten_nil, List.append_nil, values_of_length_le (by omega), hvalues,
          List.take_of_length_le (by omega)]

-- What the last symbol has to divide if it stands for less than six bits.
def spare (count : Nat) : Nat :=
  if count % 4 = 2 then 16 else if count % 4 = 3 then 4 else 1

-- No symbol stands alone, and the bits that belong to no byte are zero.
structure EndsWhole (read : List Nat) : Prop where
  length : read.length % 4 ≠ 1
  last : ∀ last ∈ read.getLast?, last % spare read.length = 0

theorem exists_groupBytes?_iff {read : List Nat} (hread : read ≠ []) (h : read.length ≤ 4) :
    (∃ bytes, groupBytes? read = some bytes) ↔ EndsWhole read := by
  match read with
  | [a] => exact ⟨nofun, fun hwhole => absurd rfl hwhole.length⟩
  | [a, b] =>
    constructor
    · rintro ⟨bytes, hbytes⟩
      refine ⟨by simp, ?_⟩
      rintro _ ⟨⟩
      exact (Option.ite_none_right_eq_some.mp hbytes).1
    · exact fun hwhole => ⟨_, if_pos (hwhole.last b rfl)⟩
  | [a, b, c] =>
    constructor
    · rintro ⟨bytes, hbytes⟩
      refine ⟨by simp, ?_⟩
      rintro _ ⟨⟩
      exact (Option.ite_none_right_eq_some.mp hbytes).1
    · exact fun hwhole => ⟨_, if_pos (hwhole.last c rfl)⟩
  | [a, b, c, d] => exact ⟨fun _ => ⟨by simp, by simp [spare, Nat.mod_one]⟩, fun _ => ⟨_, rfl⟩⟩

theorem endsWhole_drop {read : List Nat} (h : 4 < read.length) :
    EndsWhole (read.drop 4) ↔ EndsWhole read := by
  have hlength : (read.drop 4).length % 4 = read.length % 4 := by
    rw [List.length_drop]
    omega
  have hlast : (read.drop 4).getLast? = read.getLast? := by
    rw [List.getLast?_drop, if_neg (by omega)]
  have hspare : spare (read.drop 4).length = spare read.length := by rw [spare, hlength, spare]
  constructor
  · rintro ⟨hlone, hbits⟩
    rw [hlength] at hlone
    rw [hlast, hspare] at hbits
    exact ⟨hlone, hbits⟩
  · rintro ⟨hlone, hbits⟩
    rw [← hlength] at hlone
    rw [← hlast, ← hspare] at hbits
    exact ⟨hlone, hbits⟩

theorem exists_groups_iff {read : List Nat} :
    (∃ groups, List.Forall₂ (fun group bytes => groupBytes? group = some bytes)
      (chunks 4 read) groups) ↔ EndsWhole read := by
  induction hlength : read.length using Nat.strongRecOn generalizing read with
  | ind length ih =>
    subst hlength
    by_cases hread : read = []
    · subst hread
      exact iff_of_true ⟨[], .nil⟩ ⟨by simp, by simp⟩
    · rw [chunks_of_ne_nil (by decide) hread]
      by_cases hlong : 4 < read.length
      · have hshorter : (read.drop 4).length < read.length := by
          rw [List.length_drop]
          omega
        rw [← endsWhole_drop hlong, ← ih _ hshorter rfl]
        match read with
        | a :: b :: c :: d :: rest =>
          constructor
          · rintro ⟨groups, hgroups⟩
            obtain ⟨group, others, -, hothers, -⟩ := List.forall₂_cons_left_iff.mp hgroups
            exact ⟨others, hothers⟩
          · exact fun ⟨groups, hgroups⟩ => ⟨_, .cons rfl hgroups⟩
      · rw [← exists_groupBytes?_iff hread (by omega), List.take_of_length_le (by omega),
          List.drop_of_length_le (by omega)]
        constructor
        · rintro ⟨groups, hgroups⟩
          obtain ⟨group, others, hgroup, -, -⟩ := List.forall₂_cons_left_iff.mp hgroups
          exact ⟨group, hgroup⟩
        · exact fun ⟨bytes, hbytes⟩ => ⟨[bytes], .cons hbytes .nil⟩

theorem endsWhole_values (bytes : Bytes) : EndsWhole (values bytes) := by
  refine exists_groups_iff.mp ⟨chunks 3 bytes, ?_⟩
  rw [chunks_values, List.forall₂_map_left_iff, List.forall₂_same]
  exact groupBytes?_groupValues bytes

end Groups

section Texts

variable {alphabet : Alphabet} {padding : Padding} {text : List Char} {bytes : Bytes}

theorem decode?_eq_some_iff (halphabet : alphabet.IsFaithful) :
    decode? alphabet padding text = some bytes ↔
      ∃ count, padding.Accepts (symbols alphabet bytes).length count ∧
        text = symbols alphabet bytes ++ List.replicate count '=' := by
  constructor
  · intro h
    obtain ⟨⟨⟩, hrest, h⟩ := Option.bind_eq_some_iff.mp h
    obtain ⟨read, hread, h⟩ := Option.bind_eq_some_iff.mp h
    obtain ⟨groups, hgroups, h⟩ := Option.bind_eq_some_iff.mp h
    obtain ⟨hpadding, haccepts⟩ := (Option.guard_eq_some' _).mp hrest
    obtain rfl := Option.some.inj h
    obtain ⟨hlt, hsymbols⟩ := map_symbol_of_mapM hread
    have hvalues := values_of_groups hlt (mapM_eq_some_iff.mp hgroups)
    have hbody : symbols alphabet groups.flatten = text.takeWhile (· ≠ '=') := by
      rw [symbols_eq, hvalues, hsymbols]
    have hreplicate : text.dropWhile (· ≠ '=') =
        List.replicate (text.dropWhile (· ≠ '=')).length '=' := by
      rw [List.eq_replicate_iff]
      exact ⟨rfl, fun char hchar => of_decide_eq_true (List.all_eq_true.mp hpadding char hchar)⟩
    rw [hbody]
    refine ⟨_, haccepts, ?_⟩
    rw [← hreplicate, List.takeWhile_append_dropWhile]
  · rintro ⟨count, hcount, rfl⟩
    exact decode?_symbols_append halphabet hcount

end Texts

-- A text without its padding.
def unpadded (text : List Char) : List Char := text.filter (· ≠ '=')

-- Letters, digits and the two symbols of the URL alphabet.
def isUrlSymbol (char : Char) : Bool := char.isAlphanum || char ∈ ['-', '_']

-- What may be wrong with a text: a character that is no symbol, padding before a symbol, more
-- padding than completes a group of four, a symbol alone in its group, or a last symbol with bits
-- that belong to no byte.
inductive IsFaulty (text : List Char) : Prop where
  | foreign {char : Char} (mem : char ∈ text) (padding : char ≠ '=')
      (symbol : isUrlSymbol char = false) : IsFaulty text
  | inner {front back : List Char} {char : Char} (split : text = front ++ '=' :: back)
      (mem : char ∈ back) (padding : char ≠ '=') : IsFaulty text
  | excess (count : paddingAfter (unpadded text).length < text.count '=') : IsFaulty text
  | lone (length : (unpadded text).length % 4 = 1) : IsFaulty text
  | trailing {last : Char} {value : Nat} (last_eq : (unpadded text).getLast? = some last)
      (value_eq : url.value? last = some value)
      (bits : value % spare (unpadded text).length ≠ 0) : IsFaulty text

section Url

variable {text : List Char} {bytes : Bytes} {char : Char} {count : Nat}

theorem isSome_value? (char : Char) : (url.value? char).isSome = isUrlSymbol char := by
  have hkinds : char.isAlphanum = (char.isUpper || char.isLower || char.isDigit) := rfl
  simp only [Alphabet.value?, ← isUpper_iff, ← isLower_iff, ← isDigit_iff, isUrlSymbol, hkinds]
  cases char.isUpper <;> cases char.isLower <;> cases char.isDigit <;> simp [url]
  by_cases hhyphen : char = '-' <;> by_cases hunderscore : char = '_' <;>
    simp [hhyphen, hunderscore]

theorem isUrlSymbol_of_mem (h : char ∈ symbols url bytes) : isUrlSymbol char ∧ char ≠ '=' := by
  rw [symbols_eq, List.mem_map] at h
  obtain ⟨value, hvalue, rfl⟩ := h
  have hlt := values_lt bytes value hvalue
  rw [← isSome_value?, url_isFaithful.value?_symbol value hlt]
  exact ⟨rfl, url_isFaithful.symbol_ne value hlt⟩

theorem unpadded_append {body : List Char} (hbody : ∀ char ∈ body, char ≠ '=') (count : Nat) :
    unpadded (body ++ List.replicate count '=') = body := by
  have hkeep : body.filter (· ≠ '=') = body :=
    List.filter_eq_self.mpr fun char hchar => decide_eq_true (hbody char hchar)
  rw [unpadded, List.filter_append, hkeep, List.filter_replicate]
  simp

theorem count_append {body : List Char} (hbody : ∀ char ∈ body, char ≠ '=') (count : Nat) :
    (body ++ List.replicate count '=').count '=' = count := by
  have hnone : body.count '=' = 0 := List.count_eq_zero.mpr fun hmem => hbody '=' hmem rfl
  rw [List.count_append, hnone, List.count_replicate_self, Nat.zero_add]

-- Nothing but padding follows padding.
theorem eq_of_mem_append {body front back : List Char} (hbody : ∀ char ∈ body, char ≠ '=')
    (h : body ++ List.replicate count '=' = front ++ '=' :: back) :
    ∀ char ∈ back, char = '=' := by
  have htail (tail : List Char) (hreplicate : List.replicate count '=' = tail ++ '=' :: back) :
      ∀ char ∈ back, char = '=' := fun char hchar =>
    List.eq_of_mem_replicate
      (hreplicate ▸ List.mem_append_right _ (List.mem_cons_of_mem _ hchar))
  rcases List.append_eq_append_iff.mp h with ⟨tail, -, hreplicate⟩ | ⟨tail, rfl, hback⟩
  · exact htail tail hreplicate
  · cases tail with
    | nil => exact htail [] hback.symm
    | cons first more =>
      obtain ⟨rfl, -⟩ := List.cons.inj hback
      exact absurd rfl (hbody '=' (by simp))

-- What is written, and how much padding it has.
theorem unpadded_urlEncode (bytes : Bytes) :
    unpadded (urlEncode bytes).toList = symbols url bytes ∧
      (urlEncode bytes).toList.count '=' = paddingAfter (symbols url bytes).length := by
  have hsymbols : ∀ char ∈ symbols url bytes, char ≠ '=' := fun _ h => (isUrlSymbol_of_mem h).2
  rw [urlEncode, String.toList_ofList]
  exact ⟨unpadded_append hsymbols _, count_append hsymbols _⟩

theorem urlDecode?_eq_some_iff {text : String} : urlDecode? text = some bytes ↔
    ∃ count ≤ (urlEncode bytes).toList.count '=',
      text.toList = unpadded (urlEncode bytes).toList ++ List.replicate count '=' := by
  obtain ⟨hunpadded, hcount⟩ := unpadded_urlEncode bytes
  rw [hunpadded, hcount]
  exact decode?_eq_some_iff url_isFaithful

-- Padding is the only thing in which two texts of the same bytes differ.
theorem unpadded_of_urlDecode? {text : String} (h : urlDecode? text = some bytes) :
    unpadded text.toList = unpadded (urlEncode bytes).toList := by
  obtain ⟨count, -, htext⟩ := urlDecode?_eq_some_iff.mp h
  rw [htext, (unpadded_urlEncode bytes).1]
  exact unpadded_append (fun _ h => (isUrlSymbol_of_mem h).2) count

theorem IsFaulty.urlDecode?_eq_none {text : String} (h : IsFaulty text.toList) :
    urlDecode? text = none := by
  rw [Option.eq_none_iff_forall_ne_some]
  intro bytes hread
  obtain ⟨count, hcount, htext⟩ := (decode?_eq_some_iff url_isFaithful).mp hread
  have hsymbols : ∀ char ∈ symbols url bytes, char ≠ '=' := fun _ h => (isUrlSymbol_of_mem h).2
  have hunpadded : unpadded text.toList = symbols url bytes :=
    htext ▸ unpadded_append hsymbols count
  have hwhole := endsWhole_values bytes
  have hlength : (symbols url bytes).length = (values bytes).length := List.length_map _
  cases h with
  | foreign hmem hpadding hsymbol =>
    rw [htext, List.mem_append] at hmem
    rcases hmem with hmem | hmem
    · exact absurd (isUrlSymbol_of_mem hmem).1 (by simp [hsymbol])
    · exact hpadding (List.eq_of_mem_replicate hmem)
  | inner hsplit hmem hpadding =>
    exact hpadding (eq_of_mem_append hsymbols (htext ▸ hsplit) _ hmem)
  | excess hexcess =>
    rw [hunpadded, htext, count_append hsymbols] at hexcess
    exact absurd hcount (Nat.not_le.mpr hexcess)
  | lone hlone =>
    rw [hunpadded, hlength] at hlone
    exact hwhole.length hlone
  | trailing hlast hvalue hbits =>
    rw [hunpadded, symbols_eq, List.getLast?_map, Option.map_eq_some_iff] at hlast
    obtain ⟨last, hlast, rfl⟩ := hlast
    have hlt := values_lt bytes last (List.mem_of_getLast? hlast)
    obtain rfl := Option.some.inj ((url_isFaithful.value?_symbol last hlt).symm.trans hvalue)
    rw [hunpadded, hlength] at hbits
    exact hbits (hwhole.last last hlast)

theorem exists_body (h : ∀ front back, text = front ++ '=' :: back → ∀ char ∈ back, char = '=') :
    ∃ body count, text = body ++ List.replicate count '=' ∧ ∀ char ∈ body, char ≠ '=' := by
  obtain ⟨body, hsplit, hbody, hstop⟩ := exists_dropWhile (· ≠ '=') text
  have hne : ∀ char ∈ body, char ≠ '=' := fun char hchar => of_decide_eq_true (hbody char hchar)
  cases hrest : text.dropWhile (· ≠ '=') with
  | nil =>
    rw [hrest] at hsplit
    exact ⟨body, 0, hsplit, hne⟩
  | cons first back =>
    rw [hrest] at hsplit hstop
    obtain rfl : first = '=' := by simpa using hstop first rfl
    have hback : back = List.replicate back.length '=' :=
      List.eq_replicate_iff.mpr ⟨rfl, h body back hsplit⟩
    refine ⟨body, back.length + 1, ?_, hne⟩
    rw [List.replicate_succ, ← hback]
    exact hsplit

theorem exists_urlDecode? {text : String} (h : ¬IsFaulty text.toList) :
    ∃ bytes, urlDecode? text = some bytes := by
  obtain ⟨body, count, htext, hbody⟩ := exists_body fun front back hsplit char hchar =>
    by_contra fun hpadding => h (.inner hsplit hchar hpadding)
  have hunpadded : unpadded text.toList = body := htext ▸ unpadded_append hbody count
  obtain ⟨read, hread⟩ : ∃ read, body.mapM url.value? = some read := by
    simp only [mapM_eq_some_iff]
    refine exists_forall₂ fun char hchar => ?_
    rw [← Option.isSome_iff_exists, isSome_value?]
    by_contra hsymbol
    exact h (.foreign (htext ▸ List.mem_append_left _ hchar) (hbody char hchar)
      (Bool.eq_false_iff.mpr hsymbol))
  obtain ⟨hlt, hsymbols⟩ := map_symbol_of_mapM hread
  have hlength : body.length = read.length := by rw [← hsymbols, List.length_map]
  obtain ⟨groups, hgroups⟩ : ∃ groups, List.Forall₂
      (fun group bytes => groupBytes? group = some bytes) (chunks 4 read) groups := by
    refine exists_groups_iff.mpr ⟨fun hlone => ?_, fun last hlast => ?_⟩
    · exact h (.lone (by rw [hunpadded, hlength, hlone]))
    · have hlast' : body.getLast? = some (url.symbol last) := by
        rw [← hsymbols, List.getLast?_map, hlast, Option.map_some]
      have hvalue := url_isFaithful.value?_symbol last (hlt last (List.mem_of_getLast? hlast))
      by_contra hbits
      exact h (.trailing (hunpadded.symm ▸ hlast') hvalue (by rwa [hunpadded, hlength]))
  have hwritten : symbols url groups.flatten = body := by
    rw [symbols_eq, values_of_groups hlt hgroups, hsymbols]
  refine ⟨groups.flatten, (decode?_eq_some_iff url_isFaithful).mpr ⟨count, ?_, ?_⟩⟩
  · rw [hwritten]
    by_contra hexcess
    refine h (.excess ?_)
    rw [hunpadded, htext, count_append hbody]
    exact Nat.lt_of_not_le hexcess
  · rw [hwritten, htext]

-- A text is read as the bytes for which it is written, where padding may be left off, and any other
-- text has one of five faults.
theorem urlDecode?_exact :
    (∀ text bytes, urlDecode? text = some bytes ↔
      ∃ count ≤ (urlEncode bytes).toList.count '=',
        text.toList = unpadded (urlEncode bytes).toList ++ List.replicate count '=') ∧
    (∀ left right bytes, urlDecode? left = some bytes → urlDecode? right = some bytes →
      unpadded left.toList = unpadded right.toList) ∧
    ∀ text, urlDecode? text = none ↔ IsFaulty text.toList := by
  refine ⟨fun text bytes => urlDecode?_eq_some_iff, fun left right bytes hleft hright => ?_,
    fun text => ⟨fun h => ?_, IsFaulty.urlDecode?_eq_none⟩⟩
  · rw [unpadded_of_urlDecode? hleft, unpadded_of_urlDecode? hright]
  · by_contra hfaultless
    obtain ⟨bytes, hbytes⟩ := exists_urlDecode? hfaultless
    rw [h] at hbytes
    cases hbytes

-- Four bytes with all of their padding, with half of it and without it. The standard alphabet has
-- other symbols for the first two.
theorem urlDecode?_exact_halfPadded :
    let bytes : Bytes := [0xfb, 0xff, 0x01, 0x02]
    urlDecode? "-_8BAg==" = some bytes ∧ urlDecode? "-_8BAg=" = some bytes ∧
      urlDecode? "-_8BAg" = some bytes ∧
      unpadded "-_8BAg=".toList = unpadded "-_8BAg".toList ∧
      IsFaulty "+/8BAg==".toList ∧ urlDecode? "+/8BAg==" = none := by
  intro bytes
  obtain ⟨hread, hinjective, hrefused⟩ := urlDecode?_exact
  have hpadded : (urlEncode bytes).toList = "-_8BAg==".toList := by decide
  have hall : urlDecode? "-_8BAg==" = some bytes :=
    (hread _ bytes).mpr ⟨2, by rw [hpadded]; decide, by rw [hpadded]; decide⟩
  have hhalf : urlDecode? "-_8BAg=" = some bytes :=
    (hread _ bytes).mpr ⟨1, by rw [hpadded]; decide, by rw [hpadded]; decide⟩
  have hnone : urlDecode? "-_8BAg" = some bytes :=
    (hread _ bytes).mpr ⟨0, by rw [hpadded]; decide, by rw [hpadded]; decide⟩
  have hfaulty : IsFaulty "+/8BAg==".toList :=
    .foreign (show '+' ∈ "+/8BAg==".toList by decide) (by decide) (by decide)
  exact ⟨hall, hhalf, hnone, hinjective _ _ bytes hhalf hnone, hfaulty, (hrefused _).mpr hfaulty⟩

end Url

end BlindToken.Base64
