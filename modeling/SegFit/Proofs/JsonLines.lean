/-
  The JSON lines of a journal lose nothing.  Every line is the object of one record
  (`Record.WrittenAs`), the lines are read back as the records they were made from
  (`Record.ofLines?_lines`), and so journals of different records have different lines
  (`Journal.jsonLines_lossless`).
-/
import Mathlib.Data.List.Forall2
import SegFit.Journal.Basic
import SegFit.Journal.Reader
import SegFit.Proofs.JsonText

namespace SegFit

namespace Json

theorem Scalar.nat?_value (n : Nat) : (Scalar.nat n).value.nat? = some n := by
  simp [Scalar.value, Value.nat?]

theorem Scalar.text?_value (s : String) : (Scalar.text s).value.text? = some s :=
  rfl

/-- In an object without repeated names every member is found by its name. -/
theorem Object.member?_value {α : Type} {read : Value → Option α} {o : Object} {name : String}
    {v : Scalar} (hnames : (o.map Prod.fst).Nodup) (h : (name, v) ∈ o) :
    (Object.value o).member? read name = read v.value := by
  have hlookup : (o.map (Prod.map id Scalar.value)).lookup name = some v.value := by
    induction o with
    | nil => contradiction
    | cons m o ih =>
      obtain ⟨hfresh, hnames⟩ := List.nodup_cons.mp hnames
      rw [List.map_cons, Prod.map, List.lookup_cons]
      obtain rfl | h := List.mem_cons.mp h
      · simp
      · have hne : name ≠ m.1 := fun heq => hfresh (List.mem_map.mpr ⟨_, h, heq⟩)
        simp [beq_eq_false_iff_ne.mpr hne, ih hnames h]
  simp [Object.value, Value.member?, hlookup]

end Json

theorem Level.ofName?_name (l : Level) : ofName? l.name = some l := by
  cases l <;> decide

namespace Record

variable {r : Record} {rs : List Record} {text : List Char}

/-! ## One record -/

/-- The value of the JSON form. -/
def value (r : Record) : Json.Value :=
  Json.Object.value r.members

/-- No two members have one name. -/
theorem names_nodup (r : Record) : (r.members.map Prod.fst).Nodup := by
  simp only [members, List.map_cons, List.map_nil]
  decide

theorem optionalNat?_optional (o : Option Nat) : (optional o).value.optionalNat? = some o := by
  cases o with
  | none => rfl
  | some n => simp [optional, Json.Scalar.value, Json.Value.optionalNat?, Json.Value.nat?]

/-- The members hold all of the record. -/
theorem ofValue?_value (r : Record) : ofValue? r.value = some r := by
  have hread {α : Type} {read : Json.Value → Option α} {name : String} {v : Json.Scalar} (i : Nat)
      (hi : r.members[i]? = some (name, v)) : r.value.member? read name = read v.value :=
    Json.Object.member?_value r.names_nodup (List.mem_of_getElem? hi)
  simp only [ofValue?, hread 0 rfl, hread 1 rfl, hread 2 rfl, hread 3 rfl, hread 4 rfl, hread 5 rfl,
    hread 6 rfl, hread 7 rfl, hread 8 rfl, hread 9 rfl, hread 10 rfl, hread 11 rfl, hread 12 rfl,
    Json.Scalar.nat?_value, Json.Scalar.text?_value, optionalNat?_optional, Level.ofName?_name,
    Option.bind_eq_bind, Option.bind_some]
  exact if_pos trivial

/-- `text` is the line of `r`: it is one line, a reader of JSON makes of it the object of all
members of `r`, each under a name of its own, and this object describes `r`. -/
structure WrittenAs (r : Record) (text : List Char) : Prop where
  oneLine : '\n' ∉ text
  reads : Json.read text = some r.value
  names : (r.members.map Prod.fst).Nodup
  describes : ofValue? r.value = some r

theorem writtenAs_render (r : Record) : r.WrittenAs (Json.render r.members) where
  oneLine := Json.newline_not_mem_render r.members
  reads := Json.read_render r.members
  names := r.names_nodup
  describes := r.ofValue?_value

/-! ## All records -/

/-- The text of lines falls into the lines at its newlines. -/
theorem splitOn_flatMap_line (rs : List Record) :
    (rs.flatMap line).splitOn '\n' = rs.map (fun r => Json.render r.members) ++ [[]] := by
  induction rs with
  | nil => rfl
  | cons r rs ih =>
    have hline := r.writtenAs_render.oneLine
    simp [line, List.splitOn_append_cons_self_of_not_mem hline, ih]

/-- The lines of records are read back as these records. -/
theorem ofLines?_lines (rs : List Record) : ofLines? (lines rs) = some rs := by
  have hline (r : Record) : Json.read (Json.render r.members) >>= ofValue? = some r := by
    rw [r.writtenAs_render.reads]
    exact r.ofValue?_value
  rw [ofLines?, lines, String.toList_ofList, splitOn_flatMap_line, List.dropLast_concat]
  induction rs with
  | nil => rfl
  | cons r rs ih =>
    rw [List.map_cons, List.mapM_cons, hline, ih]
    rfl

theorem count_newline_flatMap_line (rs : List Record) :
    (rs.flatMap line).count '\n' = rs.length := by
  induction rs with
  | nil => rfl
  | cons r rs ih => simp [line, List.count_eq_zero.mpr r.writtenAs_render.oneLine, ih]

end Record

/-- The lines of a journal lose nothing: there is one for each record, as many as newlines, a
reader finds the records in them, and only equal records have equal lines. -/
theorem Journal.jsonLines_lossless (j k : Journal) :
    (∃ texts : List (List Char),
      j.jsonLines.toList = texts.flatMap (· ++ ['\n']) ∧
      List.Forall₂ Record.WrittenAs j.records.toList texts) ∧
    j.jsonLines.toList.count '\n' = j.records.size ∧
    Record.ofLines? j.jsonLines = some j.records.toList ∧
    (j.jsonLines = k.jsonLines ↔ j.records = k.records) := by
  have hback (j : Journal) : Record.ofLines? j.jsonLines = some j.records.toList :=
    Record.ofLines?_lines j.records.toList
  have hchars : j.jsonLines.toList = j.records.toList.flatMap Record.line :=
    String.toList_ofList
  refine ⟨⟨j.records.toList.map fun r => Json.render r.members, ?_, ?_⟩, ?_, hback j, ?_, ?_⟩
  · rw [hchars, List.flatMap_map]
    rfl
  · rw [List.forall₂_map_right_iff]
    exact List.forall₂_same.mpr fun r _ => r.writtenAs_render
  · rw [hchars, Record.count_newline_flatMap_line, Array.length_toList]
  · intro heq
    have hsome : some j.records.toList = some k.records.toList := by rw [← hback, heq, hback]
    exact Array.toList_inj.mp (Option.some.inj hsome)
  · intro heq
    rw [jsonLines, heq, jsonLines]

end SegFit
