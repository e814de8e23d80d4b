import Mathlib
import Collections.Proofs.Json.WrittenTokens

/-!
# Reading back a written record

The reader of a record meets the members of a written one in the order of the fields, so after
each of them its draft holds the values of the fields up to there.  Behind the last member the
draft is complete, and it is the record that was written.
-/

namespace Collections.Json

variable {fields : List Field} {place : Place} {member : String × Token} {count : Nat}

/-! ## Drafts -/

namespace Draft

/-- The draft that has the values of the first fields of a record. -/
def upTo : (fields : List Field) → Record fields → Nat → Draft fields
  | [], _, _ => ()
  | _ :: fields, _, 0 => (none, empty fields)
  | _ :: fields, record, count + 1 => (some record.1, upTo fields record.2 count)

theorem upTo_zero (fields : List Field) (record : Record fields) :
    upTo fields record 0 = empty fields := by
  cases fields <;> rfl

theorem isSet_upTo (fields : List Field) (record : Record fields) (count : Nat) :
    isSet fields (upTo fields record count) count = false := by
  induction fields generalizing count with
  | nil => rfl
  | cons field fields ih =>
      cases count with
      | zero => rfl
      | succ count => exact ih record.2 count

theorem readValue_valueToken (kind : FieldKind) (value : kind.Value) :
    readValue kind (valueToken kind value) = .ok value := by
  cases kind <;> rfl

/-- Reading the next member sets one field more. -/
theorem read_upTo (record : Record fields) (hmember : (members fields record)[count]? = some member) :
    read fields (upTo fields record count) count member.2 =
      .ok (upTo fields record (count + 1)) := by
  induction fields generalizing count with
  | nil => exact absurd hmember (by simp [members])
  | cons field fields ih =>
      cases count with
      | zero =>
          rw [members, List.getElem?_cons_zero, Option.some.injEq] at hmember
          subst hmember
          rw [upTo, upTo, upTo_zero, read, readValue_valueToken]
      | succ count =>
          rw [members, List.getElem?_cons_succ] at hmember
          rw [upTo, upTo, read, ih record.2 hmember]

theorem complete_upTo (fields : List Field) (record : Record fields) :
    complete fields (upTo fields record fields.length) = .ok record := by
  induction fields with
  | nil => rfl
  | cons field fields ih =>
      rw [List.length_cons, upTo, complete, ih record.2]

end Draft

/-! ## Members -/

theorem map_fst_members (fields : List Field) (record : Record fields) :
    (members fields record).map Prod.fst = fields.map Field.name := by
  induction fields with
  | nil => rfl
  | cons field fields ih => rw [members, List.map_cons, List.map_cons, ih record.2]

theorem length_members (fields : List Field) (record : Record fields) :
    (members fields record).length = fields.length := by
  rw [← List.length_map Prod.fst, map_fst_members, List.length_map]

/-- The names of different fields are different. -/
def DistinctNames (fields : List Field) : Prop :=
  (fields.map Field.name).Nodup

instance (fields : List Field) : Decidable (DistinctNames fields) :=
  inferInstanceAs (Decidable (fields.map Field.name).Nodup)

theorem findIdx?_name (hdistinct : DistinctNames fields) (record : Record fields)
    (hmember : (members fields record)[count]? = some member) :
    (fields.findIdx? fun field => field.name == member.1) = some count := by
  have hname : (fields.map Field.name)[count]? = some member.1 := by
    rw [← map_fst_members fields record, List.getElem?_map, hmember]
    rfl
  obtain ⟨hcount, hname⟩ := List.getElem?_eq_some_iff.mp hname
  rw [List.findIdx?_eq_some_iff_getElem]
  refine ⟨List.length_map Field.name ▸ hcount, ?_, ?_⟩
  · rw [← hname, List.getElem_map, beq_iff_eq]
  · intro earlier hearlier hsame
    have hbefore : earlier < (fields.map Field.name).length := Nat.lt_trans hearlier hcount
    have hequal : (fields.map Field.name)[earlier] = (fields.map Field.name)[count] := by
      rw [List.getElem_map, hname, ← beq_iff_eq]
      exact hsame
    exact absurd (hdistinct.getElem_inj_iff.mp hequal) (Nat.ne_of_lt hearlier)

/-! ## The reader -/

namespace RecordReader

variable {schema : Schema} {record : Record schema.fields}

/-- The reader at a place, behind the first members of a record. -/
def behind (record : Record schema.fields) (place : Place) (count : Nat) : RecordReader schema :=
  ⟨place, .upTo schema.fields record count⟩

theorem run_member (hdistinct : DistinctNames schema.fields)
    (hmember : (members schema.fields record)[count]? = some member)
    (hplace : place = .firstKey ∨ place = .key) (rest : List Token) :
    (behind record place count).run (memberTokens member ++ rest) =
      (behind record .afterMember (count + 1)).run rest := by
  have hkey : (behind record place count).step (.text (.ok member.1) none) =
      .ok (behind record (.colon (some count)) count) := by
    rcases hplace with rfl | rfl
    all_goals
      change (behind record _ count).atKey member.1 = _
      rw [atKey, findIdx?_name hdistinct record hmember]
      dsimp only
      rw [if_neg (by rw [behind, Draft.isSet_upTo]; exact Bool.false_ne_true)]
      rfl
  have hcolon : (behind record (.colon (some count)) count).step .colon =
      .ok (behind record (.value count) count) := rfl
  have hvalue : (behind record (.value count) count).step member.2 =
      .ok (behind record .afterMember (count + 1)) := by
    change (behind record (.value count) count).take count member.2 .afterMember = _
    rw [take, behind, Draft.read_upTo record hmember]
    rfl
  rw [memberTokens, List.cons_append, List.cons_append, List.cons_append, List.nil_append, run,
    hkey]
  dsimp only
  rw [run, hcolon]
  dsimp only
  rw [run, hvalue]

theorem run_closing (hplace : place = .firstKey ∨ place = .afterMember)
    (hcount : count = schema.fields.length) :
    (behind record place count).run [.closing .object] = .ok record := by
  subst hcount
  have hcomplete := Draft.complete_upTo schema.fields record
  have hfinish : (behind record place schema.fields.length).step (.closing .object) =
      .ok (behind record .finished schema.fields.length) := by
    rcases hplace with rfl | rfl
    all_goals
      change (behind record _ _).finish = _
      rw [finish, behind, hcomplete]
      rfl
  rw [run, hfinish]
  exact hcomplete

theorem run_comma (rest : List Token) :
    (behind record .afterMember count).run (.comma :: rest) =
      (behind record .key count).run rest :=
  rfl

/-- The members from one on, with a comma between any two, complete the record. -/
theorem run_members (hdistinct : DistinctNames schema.fields)
    {remaining : List (String × Token)}
    (hremaining : (members schema.fields record).drop count = remaining)
    (hcount : count ≤ (members schema.fields record).length)
    (hplace : place = .firstKey ∨ place = .key ∧ remaining ≠ []) :
    (behind record place count).run
        ([Token.comma].intercalate (remaining.map memberTokens) ++ [.closing .object]) =
      .ok record := by
  induction remaining generalizing count place with
  | nil =>
      have hend := List.drop_eq_nil_iff.mp hremaining
      have hfirst : place = .firstKey := hplace.resolve_right fun hkey => hkey.2 rfl
      apply run_closing (Or.inl hfirst)
      rw [← length_members schema.fields record]
      exact Nat.le_antisymm hcount hend
  | cons member others ih =>
      have hmember : (members schema.fields record)[count]? = some member := by
        rw [← List.head?_drop, hremaining, List.head?_cons]
      have hothers : (members schema.fields record).drop (count + 1) = others := by
        rw [← List.tail_drop, hremaining, List.tail_cons]
      have hnext : count + 1 ≤ (members schema.fields record).length :=
        (List.getElem?_eq_some_iff.mp hmember).1
      have hkey : place = .firstKey ∨ place = .key := hplace.imp_right And.left
      -- A bracket follows the last member and a comma any other, so the cases are told apart here.
      cases others with
      | nil =>
          rw [List.map_singleton, List.intercalate_singleton, run_member hdistinct hmember hkey]
          apply run_closing (Or.inr rfl)
          rw [← length_members schema.fields record]
          exact Nat.le_antisymm hnext (List.drop_eq_nil_iff.mp hothers)
      | cons following rest =>
          have hmore : (following :: rest).map memberTokens ≠ [] := List.cons_ne_nil _ _
          rw [List.map_cons, List.intercalate_cons_of_ne_nil hmore, List.append_assoc,
            List.append_assoc, run_member hdistinct hmember hkey]
          change (behind record .afterMember (count + 1)).run (.comma :: _) = _
          rw [run_comma]
          exact ih hothers hnext (Or.inr ⟨rfl, List.cons_ne_nil _ _⟩)

end RecordReader

/-- A record is read back from the text that is written for it. -/
theorem readRecord_writeRecord {schema : Schema} (hplain : PlainNames schema.fields)
    (hdistinct : DistinctNames schema.fields) (record : Record schema.fields) :
    readRecord schema (writeRecord schema record) = .ok record := by
  have hstart : RecordReader.start schema = RecordReader.behind record .start 0 := by
    rw [RecordReader.start, RecordReader.behind, Draft.upTo_zero]
  rw [readRecord, tokens_writeRecord hplain, hstart]
  exact RecordReader.run_members hdistinct List.drop_zero (Nat.zero_le _) (Or.inl rfl)

end Collections.Json
