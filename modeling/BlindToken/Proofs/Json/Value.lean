import Mathlib.Data.List.Forall2
import BlindToken.Json.Value
import BlindToken.Proofs.Json.Lexeme

namespace BlindToken.Json

namespace Reading

variable {reading next : Reading} {stack : List Frame} {lexeme : Lexeme}

theorem run_nil (reading : Reading) : reading.run [] = reading.result? := by
  rw [run]
  rfl

theorem run_eq {text rest : List Char} (hblank : ∀ char ∈ text.head?, isBlank char = false)
    (hread : Lexeme.read? text = some (lexeme, rest)) (hstep : reading.step lexeme = some next) :
    reading.run text = next.run rest := by
  cases text with
  | nil => cases hread
  | cons char chars =>
    have hkept : (char :: chars).dropWhile isBlank = char :: chars :=
      List.dropWhile_cons_of_neg (by simp [hblank char rfl])
    rw [run]
    split
    · simp_all
    · rename_i heq
      rw [hkept] at heq
      obtain ⟨rfl, rfl⟩ := List.cons.inj heq
      split <;> simp_all

-- A sign is a lexeme of its own.
theorem run_sign {sign : Char} (hblank : isBlank sign = false) {rest : List Char}
    (hread : Lexeme.read? (sign :: rest) = some (lexeme, rest))
    (hstep : reading.step lexeme = some next) : reading.run (sign :: rest) = next.run rest :=
  run_eq (fun _ hchar => Option.some.inj hchar ▸ hblank) hread hstep

-- A value may come next, and is put on this stack.
inductive AwaitsValue : Reading → List Frame → Prop where
  | value (stack : List Frame) : AwaitsValue (atValue stack) stack
  | firstItem (stack : List Frame) : AwaitsValue (atFirstItem stack) (.array [] :: stack)

theorem AwaitsValue.step_eq (h : AwaitsValue reading stack) (hopen : lexeme ≠ .closeArray) :
    reading.step lexeme = beginValue stack lexeme := by
  cases h with
  | value => rfl
  | firstItem => cases lexeme <;> first | rfl | exact absurd rfl hopen

-- The name of a field may come next, behind these fields.
inductive AwaitsName : Reading → List Field → List Frame → Prop where
  | first (stack : List Frame) : AwaitsName (atFirstName stack) [] stack
  | next (fields : List Field) (stack : List Frame) : AwaitsName (atName fields stack) fields stack

theorem AwaitsName.step_eq {fields : List Field} (h : AwaitsName reading fields stack)
    (name : Option String) : reading.step (.text name) = some (atColon fields name stack) := by
  cases h <;> rfl

end Reading

open Reading

-- Wherever a value may come, the text is read as this one.
def IsWritten (text : List Char) (value : Value) : Prop :=
  ∀ reading stack rest, AwaitsValue reading stack → EndsNumber rest →
    reading.run (text ++ rest) = (pastValue value stack).run rest

def fieldText (field : String × List Char) : List Char := quoted field.1 ++ ':' :: field.2

-- The field has the name and the value that are written.
structure IsFieldWritten (field : String × List Char) (value : Field) : Prop where
  name : value.1 = some field.1
  written : IsWritten field.2 value.2

theorem endsNumber_cons {next : Char}
    (hnext : next.isDigit = false ∧ next ≠ '.' ∧ next ≠ 'e' ∧ next ≠ 'E') (rest : List Char) :
    EndsNumber (next :: rest) :=
  fun _ hchar => Option.some.inj hchar ▸ hnext

theorem not_isBlank_quoted (content : String) (rest : List Char) :
    ∀ char ∈ (quoted content ++ rest).head?, isBlank char = false := by
  intro char hchar
  obtain rfl : '"' = char := Option.some.inj hchar
  rfl

theorem isWritten_quoted (content : String) : IsWritten (quoted content) (.text (some content)) := by
  intro reading stack rest hawaits _
  exact run_eq (not_isBlank_quoted content rest) (read?_quoted content rest)
    (hawaits.step_eq (by simp))

theorem isWritten_natural (value : Nat) : IsWritten (natural value) (.number (some value)) := by
  intro reading stack rest hawaits hrest
  refine run_eq ?_ (read?_natural value hrest) (hawaits.step_eq (by simp))
  intro char hchar
  rw [natural, List.head?_append_of_ne_nil _ Nat.toDigits_ne_nil] at hchar
  have hdigit : char.isDigit :=
    Nat.isDigit_of_mem_toDigits (by decide) (by decide) (List.mem_of_mem_head? hchar)
  simp only [isBlank, Bool.or_eq_false_iff, decide_eq_false_iff_not]
  refine ⟨⟨⟨?_, ?_⟩, ?_⟩, ?_⟩ <;> rintro rfl <;> cases hdigit

section Containers

variable {reading : Reading} {stack : List Frame}

theorem intercalate_cons_append (first second : List Char) (others : List (List Char))
    (rest : List Char) : [','].intercalate (first :: second :: others) ++ rest =
      first ++ ',' :: ([','].intercalate (second :: others) ++ rest) := by
  rw [List.intercalate_cons_cons, List.append_assoc, List.append_assoc, List.singleton_append]

-- One item or more, up to the end of the list.
theorem run_items {items : List (List Char)} {values done : List Value}
    (hitems : List.Forall₂ IsWritten items values) (hnonempty : items ≠ [])
    (hawaits : AwaitsValue reading (.array done :: stack)) (rest : List Char) :
    reading.run ([','].intercalate items ++ ']' :: rest) =
      (pastValue (.array (done.reverse ++ values)) stack).run rest := by
  induction hitems generalizing reading done with
  | nil => exact absurd rfl hnonempty
  | @cons item value items values hitem hitems ih =>
    cases items with
    | nil =>
      obtain rfl := List.forall₂_nil_left_iff.mp hitems
      rw [List.intercalate_singleton, hitem _ _ _ hawaits (endsNumber_cons (by decide) rest),
        ← List.reverse_cons]
      exact run_sign rfl rfl rfl
    | cons second items =>
      rw [intercalate_cons_append, hitem _ _ _ hawaits (endsNumber_cons (by decide) _)]
      have hnext := ih (List.cons_ne_nil _ _) (.value (.array (value :: done) :: stack))
      rw [List.reverse_cons, List.append_assoc, List.singleton_append] at hnext
      exact (run_sign rfl rfl rfl).trans hnext

theorem isWritten_listed {items : List (List Char)} {values : List Value}
    (hitems : List.Forall₂ IsWritten items values) : IsWritten (listed items) (.array values) := by
  intro reading stack rest hawaits _
  have hopen : reading.run ('[' :: ([','].intercalate items ++ ']' :: rest)) =
      (atFirstItem stack).run ([','].intercalate items ++ ']' :: rest) :=
    run_sign rfl rfl (hawaits.step_eq (by simp))
  rw [listed, List.cons_append, List.cons_append, List.append_assoc, List.singleton_append, hopen]
  cases items with
  | nil =>
    obtain rfl := List.forall₂_nil_left_iff.mp hitems
    exact run_sign rfl rfl rfl
  | cons item items => exact run_items hitems (List.cons_ne_nil _ _) (.firstItem stack) rest

theorem run_field {field : String × List Char} {value : Field} {done : List Field}
    (hfield : IsFieldWritten field value) (hawaits : AwaitsName reading done stack)
    {rest : List Char} (hrest : EndsNumber rest) :
    reading.run (fieldText field ++ rest) =
      (pastValue value.2 (.object done value.1 :: stack)).run rest := by
  obtain ⟨name, item⟩ := value
  obtain ⟨rfl, hwritten⟩ := hfield
  have hname : reading.run (quoted field.1 ++ (':' :: (field.2 ++ rest))) =
      (atColon done (some field.1) stack).run (':' :: (field.2 ++ rest)) :=
    run_eq (not_isBlank_quoted _ _) (read?_quoted _ _) (hawaits.step_eq _)
  rw [fieldText, List.append_assoc, List.cons_append, hname]
  exact (run_sign rfl rfl rfl).trans (hwritten _ _ _ (.value _) hrest)

theorem run_fields {fields : List (String × List Char)} {values done : List Field}
    (hfields : List.Forall₂ IsFieldWritten fields values) (hnonempty : fields ≠ [])
    (hawaits : AwaitsName reading done stack) (rest : List Char) :
    reading.run ([','].intercalate (fields.map fieldText) ++ '\x7d' :: rest) =
      (pastValue (.object (done.reverse ++ values)) stack).run rest := by
  induction hfields generalizing reading done with
  | nil => exact absurd rfl hnonempty
  | @cons field value fields values hfield hfields ih =>
    cases fields with
    | nil =>
      obtain rfl := List.forall₂_nil_left_iff.mp hfields
      rw [List.map_singleton, List.intercalate_singleton,
        run_field hfield hawaits (endsNumber_cons (by decide) rest), ← List.reverse_cons]
      exact run_sign rfl rfl rfl
    | cons second fields =>
      rw [List.map_cons, List.map_cons, intercalate_cons_append,
        run_field hfield hawaits (endsNumber_cons (by decide) _)]
      have hnext := ih (List.cons_ne_nil _ _) (.next (value :: done) stack)
      rw [List.reverse_cons, List.append_assoc, List.singleton_append] at hnext
      exact (run_sign rfl rfl rfl).trans hnext

theorem isWritten_record {fields : List (String × List Char)} {values : List Field}
    (hfields : List.Forall₂ IsFieldWritten fields values) :
    IsWritten (record fields) (.object values) := by
  intro reading stack rest hawaits _
  have hopen (text : List Char) :
      reading.run ('\x7b' :: text) = (atFirstName stack).run text :=
    run_sign rfl rfl (hawaits.step_eq (by simp))
  have hfieldTexts : record fields =
      '\x7b' :: [','].intercalate (fields.map fieldText) ++ ['\x7d'] := rfl
  rw [hfieldTexts, List.cons_append, List.cons_append, List.append_assoc, List.singleton_append,
    hopen]
  cases fields with
  | nil =>
    obtain rfl := List.forall₂_nil_left_iff.mp hfields
    exact run_sign rfl rfl rfl
  | cons field fields => exact run_fields hfields (List.cons_ne_nil _ _) (.first stack) rest

end Containers

theorem IsWritten.parse?_eq {text : List Char} {value : Value} (h : IsWritten text value) :
    Value.parse? (String.ofList text) = some value := by
  have hread := h (atValue []) [] [] (.value []) (fun _ hnext => nomatch hnext)
  rw [List.append_nil, run_nil] at hread
  rw [Value.parse?, String.toList_ofList]
  exact hread

end BlindToken.Json
