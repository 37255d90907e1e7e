import NodeWeave.Proofs.Yaml.Merging
import NodeWeave.Yaml.Reader

/-! What is read is well-formed: a map with one key twice is not read. -/

namespace NodeWeave.Yaml

variable {α β : Type} {P : α → Prop} {Q : β → Prop}

def Yields (P : α → Prop) (steps : Decode α) : Prop :=
  ∀ left found after, steps.run left = .ok (found, after) → P found

namespace Yields

theorem pure {found : α} (holds : P found) : Yields P (Pure.pure found) := by
  intro left found after run
  cases run
  exact holds

theorem throw (problem : Problem) : Yields P (throw problem) := by
  intro left found after run
  cases run

theorem lift {result : Except Problem α} (holds : ∀ found, result = .ok found → P found) :
    Yields P (liftM result) := by
  intro left found after run
  cases result with
  | error problem => cases run
  | ok value =>
      cases run
      exact holds _ rfl

theorem bind {first : Decode β} {next : β → Decode α} (one : Yields Q first)
    (two : ∀ found, Q found → Yields P (next found)) : Yields P (first >>= next) := by
  intro left found after run
  rw [StateT.run_bind] at run
  cases before : first.run left with
  | error problem =>
      rw [before] at run
      cases run
  | ok pair =>
      obtain ⟨between, state⟩ := pair
      rw [before] at run
      exact two between (one left between state before) state found after run

theorem any {steps : Decode α} : Yields (fun _ => True) steps :=
  fun _ _ _ _ => trivial

theorem bind_any {first : Decode β} {next : β → Decode α} (two : ∀ found, Yields P (next found)) :
    Yields P (first >>= next) :=
  bind any fun found _ => two found

theorem mapM {items : List β} {read : β → Decode α} (each : ∀ item, Yields P (read item)) :
    Yields (fun values => ∀ value ∈ values, P value) (items.mapM read) := by
  induction items with
  | nil => exact pure (List.forall_mem_nil _)
  | cons item rest ih =>
      rw [List.mapM_cons]
      refine bind (each item) fun value holds => bind ih fun values others => pure ?_
      exact List.forall_mem_cons.mpr ⟨holds, others⟩

end Yields

/-- Entries whose keys and values are well-formed. -/
def WellFormedEntry (entry : Yaml × Yaml) : Prop :=
  WellFormed entry.1 ∧ WellFormed entry.2

/-- Entries are put behind those before them, as long as their keys are new. -/
theorem isMapping_foldlM {entries start found : Entries} (mapping : IsMapping start)
    (each : ∀ entry ∈ entries, WellFormedEntry entry)
    (read : entries.foldlM (fun sorted (key, value) =>
      if (find? key sorted).isSome then Except.error Problem.duplicateKey
      else .ok (sorted ++ [(key, value)])) start = .ok found) : IsMapping found := by
  induction entries generalizing start with
  | nil =>
      cases read
      exact mapping
  | cons entry rest ih =>
      obtain ⟨key, value⟩ := entry
      obtain ⟨⟨wfKey, wfValue⟩, eachRest⟩ := List.forall_mem_cons.mp each
      rw [List.foldlM_cons] at read
      dsimp only at read
      by_cases fresh : (find? key start).isSome = true
      · rw [if_pos fresh] at read
        cases read
      · rw [if_neg fresh] at read
        have absent := find?_eq_none_iff.mp (Option.not_isSome_iff_eq_none.mp fresh)
        exact ih (mapping.append wfKey wfValue absent) eachRest read

theorem wellFormed_ofPlain? {text : String} {found : Yaml} (read : ofPlain? text = some found) :
    WellFormed found := by
  unfold ofPlain? ofFraction at read
  repeat' split at read
  all_goals cases read
  all_goals constructor

theorem wellFormed_scalarValue {tag : Option String} {style : ScalarStyle} {text : String}
    {found : Yaml} (read : Document.scalarValue tag style text = .ok found) :
    WellFormed found := by
  unfold Document.scalarValue at read
  dsimp only at read
  repeat' split at read
  all_goals cases read
  all_goals first
    | exact wellFormed_ofPlain? ‹_›
    | constructor

theorem wellFormed_tagValue {tag : Option String} {value found : Yaml} (wf : WellFormed value)
    (read : Document.tagValue tag value = .ok found) : WellFormed found := by
  unfold Document.tagValue at read
  split at read
  · cases read
  · cases read
    exact .tagged _ wf
  · cases read
    exact wf

theorem isMapping_distinctEntries {entries found : Entries}
    (each : ∀ entry ∈ entries, WellFormedEntry entry)
    (read : Document.distinctEntries entries = .ok found) : IsMapping found :=
  isMapping_foldlM .nil each read

namespace Document

variable (d : Document)

theorem yields_entry {depth : Nat} (each : ∀ node, Yields WellFormed (d.value depth node))
    (entry : Node × Node) :
    Yields WellFormedEntry (do
      let key ← d.value depth entry.1
      let value ← d.value depth entry.2
      return (key, value)) :=
  .bind (each entry.1) fun _ wfKey => .bind (each entry.2) fun _ wfValue => .pure ⟨wfKey, wfValue⟩

theorem yields_value (depth : Nat) (node : Node) : Yields WellFormed (d.value depth node) := by
  induction depth generalizing node with
  | zero =>
      rw [value]
      refine .bind_any fun found => ?_
      cases found with
      | scalar tag style text =>
          refine .bind (.lift fun _ read => wellFormed_scalarValue read) fun value wf => ?_
          exact .lift fun _ read => wellFormed_tagValue wf read
      | _ => exact .throw _
  | succ depth ih =>
      rw [value]
      refine .bind_any fun found => ?_
      cases found with
      | scalar tag style text =>
          refine .bind (.lift fun _ read => wellFormed_scalarValue read) fun value wf => ?_
          exact .lift fun _ read => wellFormed_tagValue wf read
      | list tag items =>
          refine .bind (.mapM ih) fun values each => ?_
          exact .lift fun _ read => wellFormed_tagValue (.list each) read
      | map tag entries =>
          refine .bind (.mapM (d.yields_entry ih)) fun entries each => ?_
          refine .bind (.lift fun _ read => isMapping_distinctEntries each read) fun _ mapping => ?_
          exact .lift fun _ read => wellFormed_tagValue (wellFormed_map.mpr mapping) read
      | _ => exact .throw _

theorem yields_entriesValue (depth : Nat) (node : Node) :
    Yields IsMapping (d.entriesValue depth node) := by
  refine .bind_any fun entries => ?_
  cases depth with
  | zero => exact .throw _
  | succ depth =>
      refine .bind (.mapM (d.yields_entry (d.yields_value depth))) fun values each => ?_
      exact .lift fun _ read => isMapping_distinctEntries each read

end Document

end NodeWeave.Yaml
