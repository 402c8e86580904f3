/-
  What is rendered is read back (`read_render`), and stays on one line (`newline_not_mem_render`).
  The functions of the reader are taken one by one: each, started on what the matching function
  renders with more text behind it, returns what was rendered and leaves that text.
-/
import SegFit.Text.Json
import SegFit.Text.JsonReader

namespace SegFit.Json

variable {c d : Char} {cs rest : List Char} {n fuel : Nat}

/-! ## Blanks and marks -/

theorem skipBlanks_cons (h : isBlank c = false) : skipBlanks (c :: rest) = c :: rest := by
  simp [skipBlanks, h]

theorem readMark_self (h : isBlank c = false) : readMark c (c :: rest) = some rest := by
  simp [readMark, skipBlanks_cons h]

theorem readMark_other (h : isBlank d = false) (hne : d ≠ c) : readMark c (d :: rest) = none := by
  simp [readMark, skipBlanks_cons h, hne]

/-- What stands behind a value in an object: a comma or the closing brace. -/
inductive Behind : List Char → Prop where
  | comma (rest : List Char) : Behind (',' :: rest)
  | brace (rest : List Char) : Behind ('\x7d' :: rest)

/-! ## Numbers -/

theorem readDigits_append (hcs : ∀ c ∈ cs, c.isDigit) (hne : cs ≠ []) (hrest : Behind rest) :
    readDigits (cs ++ rest) = some (cs, rest) := by
  have htake : (cs ++ rest).takeWhile Char.isDigit = cs := by
    rw [List.takeWhile_append_of_pos hcs]
    cases hrest <;> rw [List.takeWhile_cons_of_neg (by decide), List.append_nil]
  have hdrop : (cs ++ rest).dropWhile Char.isDigit = rest := by
    rw [List.dropWhile_append_of_pos hcs]
    cases hrest <;> rw [List.dropWhile_cons_of_neg (by decide)]
  cases cs with
  | nil => exact absurd rfl hne
  | cons c cs => rw [readDigits, htake, hdrop]

/-- A numeral has no leading zero. -/
theorem head?_toDigits_ne (h : 0 < n) : (Nat.toDigits 10 n).head? ≠ some '0' := by
  induction n using Nat.strongRecOn with
  | ind n ih =>
    by_cases hlt : n < 10
    · rw [Nat.toDigits_of_lt_base hlt]
      have hdigit : ∀ m < 10, 0 < m → m.digitChar ≠ '0' := by decide
      simpa using hdigit n hlt h
    · rw [Nat.toDigits_of_base_le (by decide) (by omega)]
      have hhead := ih (n / 10) (by omega) (by omega)
      cases hdigits : Nat.toDigits 10 (n / 10) with
      | nil => exact absurd hdigits Nat.toDigits_ne_nil
      | cons c cs => simpa [hdigits] using hhead

theorem readWhole_toDigits (hrest : Behind rest) :
    readWhole (Nat.toDigits 10 n ++ rest) = some (Nat.toDigits 10 n, rest) := by
  have hdigits := readDigits_append (fun c => Nat.isDigit_of_mem_toDigits (by decide) (by decide))
    (Nat.toDigits_ne_nil (b := 10) (n := n)) hrest
  have hlead : ¬((Nat.toDigits 10 n).head? = some '0' ∧ Nat.toDigits 10 n ≠ ['0']) := by
    rintro ⟨hhead, hne⟩
    cases n with
    | zero => exact hne (Nat.toDigits_zero 10)
    | succ n => exact head?_toDigits_ne (Nat.succ_pos n) hhead
  simp [readWhole, hdigits, hlead]

theorem readUnsigned_toDigits (hrest : Behind rest) :
    readUnsigned (Nat.toDigits 10 n ++ rest) = some ((n : Rat), rest) := by
  have hfraction : readFraction rest = some ([], rest) := by cases hrest <;> rfl
  have hexponent : readExponent rest = some (0, rest) := by cases hrest <;> rfl
  simp [readUnsigned, readWhole_toDigits hrest, hfraction, hexponent]

/-- A value that starts with a digit is a number without a sign. -/
theorem readValue_digit (h : c.isDigit) :
    readValue (fuel + 1) (c :: rest) =
      (readUnsigned (c :: rest)).map (Prod.map .number id) := by
  have hblank : isBlank c = false := by
    rw [Bool.eq_false_iff]
    intro hblank
    simp only [isBlank, Bool.or_eq_true, decide_eq_true_eq] at hblank
    obtain ((rfl | rfl) | rfl) | rfl := hblank <;> exact absurd h (by decide)
  have hsign : readNumber (c :: rest) = readUnsigned (c :: rest) := by
    rw [readNumber]
    rintro _ ⟨⟩
    exact absurd h (by decide)
  rw [readValue, skipBlanks_cons hblank, ← hsign]
  split
  case h_7 => rfl
  all_goals
    rename_i heq
    cases heq
    exact absurd h (by decide)

/-! ## Strings -/

theorem hexValue_hexDigitsFilled :
    ∀ n < 0x20, (hexDigitsFilled 4 n).length = 4 ∧ hexValue (hexDigitsFilled 4 n) = some n := by
  decide

/-- A rendered character is read as the one unit it is. -/
theorem readUnits_escapeChar :
    readUnits (escapeChar c ++ rest) = (readUnits rest).map (Prod.map (c.toNat :: ·) id) := by
  unfold escapeChar
  -- quote, backslash and the five letters
  iterate 7
    split
    · subst c
      rfl
  split
  case isTrue hcontrol =>
    obtain ⟨hlength, hvalue⟩ := hexValue_hexDigitsFilled c.toNat hcontrol
    match hexDigitsFilled 4 c.toNat, hlength, hvalue with
    | [d₁, d₂, d₃, d₄], _, hvalue => simp [readUnits, hvalue]
  case isFalse hquote hslash _ _ _ _ _ hcontrol =>
    simp [readUnits, hslash, hcontrol]

theorem readUnits_escaped :
    readUnits (cs.flatMap escapeChar ++ '"' :: rest) = some (cs.map Char.toNat, rest) := by
  induction cs with
  | nil => rfl
  | cons c cs ih => simp [readUnits_escapeChar, ih]

theorem characters_toNat : characters (cs.map Char.toNat) = some cs := by
  induction cs with
  | nil => rfl
  | cons c cs ih =>
    have hvalid : c.toNat.isValidChar := c.valid
    rw [List.map_cons, characters.eq_def]
    simp [hvalid, ih]

/-- A rendered string is read up to its own closing quote. -/
theorem readString_quote (s : String) :
    readString (s.toList.flatMap escapeChar ++ '"' :: rest) = some (s, rest) := by
  simp [readString, readUnits_escaped, characters_toNat]

/-! ## Objects -/

/-- The value that a scalar spells. -/
def Scalar.value : Scalar → Value
  | .null => .null
  | .nat n => .number n
  | .text s => .text s

theorem readValue_render (v : Scalar) (hrest : Behind rest) :
    readValue (fuel + 1) (v.render ++ rest) = some (v.value, rest) := by
  cases v with
  | null => rfl
  | nat n =>
    have hread := readUnsigned_toDigits (n := n) hrest
    have hdigits : ∀ c ∈ Nat.toDigits 10 n, c.isDigit := fun c =>
      Nat.isDigit_of_mem_toDigits (by decide) (by decide)
    cases htext : Nat.toDigits 10 n with
    | nil => exact absurd htext Nat.toDigits_ne_nil
    | cons c cs =>
      rw [htext] at hread hdigits
      rw [Scalar.render, htext, List.cons_append, readValue_digit (hdigits c List.mem_cons_self)]
      rw [← List.cons_append, hread]
      rfl
  | text s =>
    have hquote : quote s ++ rest = '"' :: (s.toList.flatMap escapeChar ++ '"' :: rest) := by
      simp [quote]
    rw [Scalar.render, hquote, readValue, skipBlanks_cons (by decide)]
    simp [readString_quote, Scalar.value]

/-- The object that flat members spell. -/
def Object.value (o : Object) : Value :=
  .object (o.map (Prod.map id Scalar.value))

theorem readMember_render (fuel : Nat) (m : String × Scalar) (hrest : Behind rest) :
    readMember (readValue (fuel + 1)) (renderMember m ++ rest) =
      some (Prod.map id Scalar.value m, rest) := by
  have htext : renderMember m ++ rest =
      '"' :: (m.1.toList.flatMap escapeChar ++ '"' :: ':' :: (m.2.render ++ rest)) := by
    simp [renderMember, quote]
  have hquote : isBlank '"' = false := by decide
  have hcolon : isBlank ':' = false := by decide
  simp [htext, readMember, readMark_self, hquote, hcolon, readString_quote,
    readValue_render _ hrest, Prod.map]

theorem readItems_render {o : Object} {bound : Nat} (ho : o ≠ []) (hbound : o.length ≤ bound) :
    readItems (readMember (readValue (fuel + 1))) '\x7d' bound (renderMembers o ++ '\x7d' :: rest) =
      some (o.map (Prod.map id Scalar.value), rest) := by
  have hbrace : isBlank '\x7d' = false := by decide
  have hcomma : isBlank ',' = false := by decide
  -- on the members, each of which uses up one of `bound`
  induction o generalizing bound with
  | nil => exact absurd rfl ho
  | cons m o ih =>
    obtain _ | bound := bound
    · exact absurd hbound (Nat.not_succ_le_zero _)
    cases o with
    | nil =>
      have hread := readMember_render fuel m (.brace rest)
      simp [renderMembers, readItems, hread, readMark_self hbrace, readMark_other hbrace]
    | cons m' o =>
      have hread := readMember_render fuel m
        (.comma (renderMembers (m' :: o) ++ '\x7d' :: rest))
      have hnext := ih (by simp) (Nat.le_of_succ_le_succ hbound)
      have htext : renderMembers (m :: m' :: o) ++ '\x7d' :: rest =
          renderMember m ++ ',' :: (renderMembers (m' :: o) ++ '\x7d' :: rest) := by
        simp [renderMembers]
      simp [htext, readItems, hread, readMark_self hcomma, hnext]

theorem length_le_renderMembers : ∀ (o : Object), o.length ≤ (renderMembers o).length
  | [] => Nat.le_refl 0
  | [m] => by simp [renderMembers, renderMember]; omega
  | m :: m' :: o => by
    have hrest := length_le_renderMembers (m' :: o)
    simp only [renderMembers, List.length_append, List.length_cons] at hrest ⊢
    omega

theorem readList_render (o : Object) :
    readList (readMember (readValue (fuel + 1))) '\x7d' (renderMembers o ++ '\x7d' :: rest) =
      some (o.map (Prod.map id Scalar.value), rest) := by
  have hbrace : isBlank '\x7d' = false := by decide
  have hquote : isBlank '"' = false := by decide
  by_cases ho : o = []
  · subst ho
    simp [readList, renderMembers, readMark_self hbrace]
  have hopen : ∃ text, renderMembers o ++ '\x7d' :: rest = '"' :: text := by
    match o with
    | [m] => exact ⟨_, rfl⟩
    | m :: m' :: o => exact ⟨_, rfl⟩
  have hbound : o.length ≤ (renderMembers o ++ '\x7d' :: rest).length := by
    rw [List.length_append]
    exact Nat.le_add_right_of_le (length_le_renderMembers o)
  obtain ⟨text, htext⟩ := hopen
  have hclose : readMark '\x7d' (renderMembers o ++ '\x7d' :: rest) = none := by
    rw [htext, readMark_other hquote (by decide)]
  rw [readList, hclose]
  exact readItems_render ho hbound

/-- A rendered object is read as the object it is. -/
theorem read_render (o : Object) : read (render o) = some (Object.value o) := by
  have hbrace : isBlank '\x7b' = false := by decide
  have hfuel : (render o).length = (renderMembers o).length + 1 + 1 := by simp [render]
  rw [read, hfuel, render, readValue, skipBlanks_cons hbrace]
  simp only [readList_render]
  rfl

/-! ## Lines -/

theorem newline_not_mem_escapeChar : '\n' ∉ escapeChar c := by
  have hdigits : ∀ n < 0x20, '\n' ∉ hexDigitsFilled 4 n := by decide
  unfold escapeChar
  iterate 7
    split
    · decide
  split
  case isTrue hcontrol => simp [hdigits c.toNat hcontrol]
  case isFalse hnewline _ _ _ => simpa using Ne.symm hnewline

theorem newline_not_mem_quote (s : String) : '\n' ∉ quote s := by
  simp [quote, newline_not_mem_escapeChar]

theorem newline_not_mem_scalar (v : Scalar) : '\n' ∉ v.render := by
  cases v with
  | null => decide
  | nat n =>
    intro hmem
    exact absurd (Nat.isDigit_of_mem_toDigits (by decide) (by decide) hmem) (by decide)
  | text s => exact newline_not_mem_quote s

theorem newline_not_mem_renderMembers (o : Object) : '\n' ∉ renderMembers o := by
  fun_induction renderMembers o with
  | case1 => simp
  | case2 m => simp [renderMember, newline_not_mem_quote, newline_not_mem_scalar]
  | case3 m o ho ih => simp [renderMember, newline_not_mem_quote, newline_not_mem_scalar, ih]

/-- A rendered object is one line. -/
theorem newline_not_mem_render (o : Object) : '\n' ∉ render o := by
  simp [render, newline_not_mem_renderMembers]

end SegFit.Json
