/-
  How settings may be written.  Two texts are the same setting in another style if they differ
  only in the case of ASCII letters and in white space before and after (`Restyled`).  The heap
  limit, the flag and the journal level are read alike from both: their readers trim the text and
  do not tell the cases of a letter apart.  The reader of the safety level folds the case as well,
  but it does not trim, so white space around the name of a level hides it
  (`Safety.ofSetting_padded`).

  Proved:
  * `Settings.ofVariables_restyled`: exactly when another style of one variable gives the same
    settings; of the four only the safety level can fail to.  And a variable, whatever its value,
    decides on its own field only.
  * `Settings.not_ofVariables_restyled`: with a blank before it, the name of the validating level
    gives the level that does not validate.
-/
import Mathlib.Data.List.TakeWhile
import Mathlib.Logic.Function.Basic
import SegFit.Settings

namespace SegFit

/-! ## Case and white space -/

theorem toNat_toLower (c : Char) :
    c.toLower.toNat =
      if 'A'.toNat ≤ c.toNat ∧ c.toNat ≤ 'Z'.toNat then c.toNat + 32 else c.toNat := by
  unfold Char.toLower
  simp only [ge_iff_le, UInt32.le_iff_toNat_le, Char.toNat_val]
  split
  · rename_i h
    have hle : c.val.toNat ≤ 90 := h.2
    show (c.val + ('a'.val - 'A'.val)).toNat = c.val.toNat + 32
    rw [UInt32.toNat_add, show ('a'.val - 'A'.val).toNat = 32 from rfl]
    omega
  · rfl

theorem toLower_toLower (c : Char) : c.toLower.toLower = c.toLower := by
  rw [← Char.toNat_inj, toNat_toLower, if_neg]
  rw [toNat_toLower]
  split
  · simp only [Char.reduceToNat] at *
    omega
  · assumption

theorem blankCodes_no_letter : ∀ n ∈ blankCodes, n < 'A'.toNat ∨ 'z'.toNat < n := by
  decide

/-- No letter is white space, in either case. -/
theorem isBlank_toLower (c : Char) : isBlank c.toLower = isBlank c := by
  unfold isBlank
  rw [toNat_toLower]
  split
  · have hletter : ∀ n, 'A'.toNat ≤ n → n ≤ 'z'.toNat → n ∉ blankCodes := fun n hle hge hn => by
      have := blankCodes_no_letter n hn
      omega
    simp only [Char.reduceToNat] at *
    rw [List.contains_eq_mem, List.contains_eq_mem, decide_eq_decide]
    exact iff_of_false (hletter _ (by omega) (by omega)) (hletter _ (by omega) (by omega))
  · rfl

/-- A character before the letters has no other case. -/
theorem eq_of_toLower {c d : Char} (hd : d.toNat < 'A'.toNat) (h : c.toLower = d) : c = d := by
  have hcode := congrArg Char.toNat h
  rw [toNat_toLower] at hcode
  split at hcode
  · simp only [Char.reduceToNat] at *
    omega
  · exact Char.toNat_inj.mp hcode

/-- Trimming and folding can be done in either order. -/
theorem trimBlanks_toLower (cs : List Char) :
    trimBlanks (cs.map Char.toLower) = (trimBlanks cs).map Char.toLower := by
  have hblank : isBlank ∘ Char.toLower = isBlank := funext isBlank_toLower
  simp only [trimBlanks, List.dropWhile_map, ← List.map_reverse, hblank]

variable {before word after : List Char}

/-- White space before and after a text is trimmed with what white space the text has. -/
theorem trimBlanks_surrounded (hb : ∀ c ∈ before, isBlank c) (ha : ∀ c ∈ after, isBlank c) :
    trimBlanks (before ++ word ++ after) = trimBlanks word := by
  unfold trimBlanks
  rw [List.append_assoc, List.dropWhile_append_of_pos hb, List.dropWhile_append]
  split
  · have hword : word.dropWhile isBlank = [] := List.isEmpty_iff.mp ‹_›
    rw [hword, List.dropWhile_eq_nil_iff.mpr ha]
  · rw [List.reverse_append, List.dropWhile_append_of_pos]
    simpa using ha

/-- A text without white space is trimmed already. -/
theorem trimBlanks_of_none (h : ∀ c ∈ word, ¬ isBlank c) : trimBlanks word = word := by
  have hdrop {cs : List Char} (hcs : ∀ c ∈ cs, ¬ isBlank c) : cs.dropWhile isBlank = cs := by
    cases cs with
    | nil => rfl
    | cons c cs => exact List.dropWhile_cons_of_neg (hcs c List.mem_cons_self)
  rw [trimBlanks, hdrop h, hdrop (by simpa using h), List.reverse_reverse]

/-! ## Styles -/

variable {v w : String}

/-- The text is `word`, which is in lower case, with its letters in any case and white space
before and after. -/
def Spells (s : String) (word : List Char) : Prop :=
  ∃ before core after, s.toList = before ++ core ++ after ∧ (∀ c ∈ before, isBlank c) ∧
    (∀ c ∈ after, isBlank c) ∧ core.map Char.toLower = word

/-- The texts differ only in the case of ASCII letters and in white space before and after. -/
def Restyled (v w : String) : Prop :=
  ∃ word, Spells v word ∧ Spells w word

/-- There is white space before or after the text. -/
def Padded (s : String) : Prop :=
  trimBlanks s.toList ≠ s.toList

instance (s : String) : Decidable (Padded s) :=
  inferInstanceAs (Decidable (_ ≠ _))

theorem Spells.trim_fold (h : Spells v word) :
    (trimBlanks v.toList).map Char.toLower = trimBlanks word := by
  obtain ⟨before, core, after, hv, hb, ha, rfl⟩ := h
  rw [hv, trimBlanks_surrounded hb ha, trimBlanks_toLower]

/-- Trimmed, two styles of one setting are the same but for the case of letters. -/
theorem Restyled.trim_fold (h : Restyled v w) :
    (trimBlanks v.toList).map Char.toLower = (trimBlanks w.toList).map Char.toLower := by
  obtain ⟨word, hv, hw⟩ := h
  rw [hv.trim_fold, hw.trim_fold]

theorem Restyled.settingText_eq (h : Restyled v w) : settingText v = settingText w := by
  rw [settingText, settingText, foldCase, foldCase, h.trim_fold]

/-! ## Readers that trim -/

theorem Restyled.level_eq (h : Restyled v w) : Level.ofSetting v = Level.ofSetting w := by
  rw [Level.ofSetting, Level.ofSetting, h.settingText_eq]

theorem Restyled.flag_eq (h : Restyled v w) : flagOfSetting v = flagOfSetting w := by
  rw [flagOfSetting, flagOfSetting, h.settingText_eq]

/-- The case of letters makes no digit. -/
theorem isDigit_toLower (c : Char) : c.toLower.isDigit = c.isDigit := by
  rw [Bool.eq_iff_iff, Char.isDigit_iff_toNat, Char.isDigit_iff_toNat, toNat_toLower]
  split
  · simp only [Char.reduceToNat] at *
    omega
  · rfl

/-- Digits have no case, and a text with anything else is no number. -/
theorem natOfDigits_toLower (cs : List Char) :
    natOfDigits (cs.map Char.toLower) = natOfDigits cs := by
  have hall : (cs.map Char.toLower).all Char.isDigit = cs.all Char.isDigit := by
    rw [List.all_map]
    exact congrArg _ (funext isDigit_toLower)
  by_cases hcs : cs.all Char.isDigit
  · have hself : cs.map Char.toLower = cs := by
      refine (List.map_congr_left fun c hc => ?_).trans (List.map_id cs)
      have hdigit := Char.isDigit_iff_toNat.mp (List.all_eq_true.mp hcs c hc)
      rw [← Char.toNat_inj, toNat_toLower, if_neg]
      · rfl
      · simp only [Char.reduceToNat] at *
        omega
    rw [hself]
  · unfold natOfDigits
    rw [hall, if_neg fun h => hcs h.2, if_neg fun h => hcs h.2]

theorem Restyled.nat_eq (h : Restyled v w) : natOfSetting v = natOfSetting w := by
  have hfold := h.trim_fold
  unfold natOfSetting
  generalize trimBlanks v.toList = cs at *
  generalize trimBlanks w.toList = ds at *
  have hdigits {cs ds : List Char} (hcs : cs.map Char.toLower = ds.map Char.toLower) :
      natOfDigits cs = natOfDigits ds := by
    rw [← natOfDigits_toLower cs, hcs, natOfDigits_toLower]
  cases cs with
  | nil =>
    obtain rfl : [] = ds := by simpa using hfold.symm
    rfl
  | cons c cs =>
    obtain ⟨d, ds, rfl, hd, hds⟩ := List.map_eq_cons_iff.mp hfold.symm
    by_cases hc : c = '+'
    · subst hc
      obtain rfl : d = '+' := eq_of_toLower (by decide) hd
      exact hdigits hds.symm
    · have hd' : d ≠ '+' := by
        rintro rfl
        exact hc (eq_of_toLower (by decide) hd.symm)
      split
      · exact absurd (List.cons.inj ‹_›).1 hc
      · split
        · exact absurd (List.cons.inj ‹_›).1 hd'
        · exact hdigits hfold

/-! ## The reader that does not trim -/

/-- No name of a level has white space in it. -/
theorem Safety.ofSetting_padded (h : Padded v) : Safety.ofSetting v = .strict := by
  have hother (name : String) (hname : name.toList.any isBlank = false) :
      foldCase v.toList ≠ name := by
    rintro rfl
    refine h (trimBlanks_of_none fun c hc hblank => List.any_eq_false.mp hname c.toLower ?_ ?_)
    · rw [foldCase, String.toList_ofList]
      exact List.mem_map_of_mem hc
    · rwa [isBlank_toLower]
  unfold Safety.ofSetting
  split
  case h_5 => rfl
  all_goals exact absurd ‹_› (hother _ (by decide))

/-- Without white space around it, the text is read as the others are. -/
theorem Safety.ofSetting_unpadded (h : ¬ Padded v) :
    Safety.ofSetting v = Safety.ofSetting (settingText v) := by
  have hfold : foldCase (settingText v).toList = foldCase v.toList := by
    simp only [settingText, of_not_not h, foldCase, String.toList_ofList, List.map_map]
    exact congrArg _ (List.map_congr_left fun c _ => toLower_toLower c)
  rw [Safety.ofSetting, Safety.ofSetting, hfold]

/-- Two styles of a safety level are read alike unless one of them hides, with white space, a name
that the other shows. -/
theorem Restyled.safety_eq_iff (h : Restyled v w) :
    Safety.ofSetting w = Safety.ofSetting v ↔
      (Padded v ↔ Padded w) ∨ Safety.ofSetting (settingText v) = .strict := by
  by_cases hv : Padded v
  · rw [Safety.ofSetting_padded hv]
    by_cases hw : Padded w
    · simp [Safety.ofSetting_padded hw, hv, hw]
    · simp [Safety.ofSetting_unpadded hw, h.settingText_eq, hv, hw]
  · rw [Safety.ofSetting_unpadded hv]
    by_cases hw : Padded w
    · simp [Safety.ofSetting_padded hw, hv, hw, eq_comm]
    · simp [Safety.ofSetting_unpadded hw, h.settingText_eq, hv, hw]

/-! ## Variables -/

namespace Settings

variable {lookup : String → Option String} {name : String}

/-- A reader that takes the values `v` and `w` of a variable for the same does not see that one was
put in the place of the other. -/
theorem read_update {α : Type} {v w : String} (key : String) (read : Option String → α)
    (hv : lookup name = some v) (hread : name = key → read (some w) = read (some v)) :
    read (Function.update lookup name (some w) key) = read (lookup key) := by
  by_cases hname : key = name
  · subst hname
    rw [Function.update_self, hv]
    exact hread rfl
  · rw [Function.update_of_ne hname]

/-- From the settings `s` to the settings `s'`, no field has changed but that of the variable
`name`. -/
structure ChangesField (name : String) (s s' : Settings) : Prop where
  safety : name ≠ "SEGALLOC_MODE" → s'.safety = s.safety
  heapLimit : name ≠ "SEGALLOC_HEAP_LIMIT" → s'.heapLimit = s.heapLimit
  verifyAlways : name ≠ "SEGALLOC_VERIFY" → s'.verifyAlways = s.verifyAlways
  minLevel : name ≠ "SEGALLOC_LOG" → s'.minLevel = s.minLevel

/-- A variable decides on its own field only. -/
theorem changesField_update (lookup : String → Option String) (name : String)
    (value : Option String) :
    ChangesField name (ofVariables lookup) (ofVariables (Function.update lookup name value)) := by
  constructor <;> intro hname <;> simp only [ofVariables, Function.update_of_ne hname.symm]

/-- Another style of one variable leaves the settings as they are, but that of the safety level
has to show the name of a level if the old one did: white space around the name hides it.  Any
other value of a variable changes its own field at most. -/
theorem ofVariables_restyled (lookup : String → Option String) (name : String) :
    (∀ v w, lookup name = some v → Restyled v w →
      (ofVariables (Function.update lookup name (some w)) = ofVariables lookup ↔
        (name = "SEGALLOC_MODE" →
          (Padded v ↔ Padded w) ∨ Safety.ofSetting (settingText v) = .strict))) ∧
    ∀ value,
      ChangesField name (ofVariables lookup) (ofVariables (Function.update lookup name value)) := by
  refine ⟨fun v w hv h => ?_, changesField_update lookup name⟩
  rw [← h.safety_eq_iff]
  constructor
  · rintro heq rfl
    have hsafety := congrArg Settings.safety heq
    simpa [ofVariables, hv] using hsafety
  · intro hsafety
    have hmode := read_update "SEGALLOC_MODE" (Option.map Safety.ofSetting) hv
      fun hname => congrArg some (hsafety hname)
    have hlimit := read_update "SEGALLOC_HEAP_LIMIT" (Option.bind · natOfSetting) hv
      fun _ => h.nat_eq.symm
    have hverify := read_update "SEGALLOC_VERIFY" (Option.map flagOfSetting) hv
      fun _ => congrArg some h.flag_eq.symm
    have hlevel := read_update "SEGALLOC_LOG" (Option.map Level.ofSetting) hv
      fun _ => congrArg some h.level_eq.symm
    simp only [ofVariables, hmode, hlimit, hverify, hlevel]

/-- Variables of which only that of the safety level is set. -/
def onlySafety (value : String) : String → Option String :=
  Function.update (fun _ => none) "SEGALLOC_MODE" (some value)

theorem ofVariables_restyled_capitals :
    onlySafety "hardened" "SEGALLOC_MODE" = some "hardened" ∧ Restyled "hardened" "HARDENED" ∧
      ofVariables (Function.update (onlySafety "hardened") "SEGALLOC_MODE" (some "HARDENED")) =
        ofVariables (onlySafety "hardened") := by
  have hset : onlySafety "hardened" "SEGALLOC_MODE" = some "hardened" := by decide
  have hstyle : Restyled "hardened" "HARDENED" :=
    ⟨"hardened".toList, ⟨[], "hardened".toList, [], rfl, by simp, by simp, by decide⟩,
      ⟨[], "HARDENED".toList, [], rfl, by simp, by simp, by decide⟩⟩
  exact ⟨hset, hstyle, ((ofVariables_restyled _ _).1 _ _ hset hstyle).mpr fun _ =>
    .inl (by decide)⟩

/-- A blank before the name of the validating level gives the level that does not validate. -/
theorem not_ofVariables_restyled :
    ¬ ∀ (lookup : String → Option String) (name v w : String), lookup name = some v →
      Restyled v w → ofVariables (Function.update lookup name (some w)) = ofVariables lookup := by
  intro hall
  have hstyle : Restyled "hardened" " hardened" :=
    ⟨"hardened".toList, ⟨[], "hardened".toList, [], rfl, by simp, by simp, by decide⟩,
      ⟨[' '], "hardened".toList, [], by decide, List.forall_mem_singleton.mpr rfl, by simp,
        by decide⟩⟩
  have heq := hall (onlySafety "hardened") "SEGALLOC_MODE" _ _ (by decide) hstyle
  exact absurd (congrArg Settings.safety heq) (by decide)

end Settings

end SegFit
