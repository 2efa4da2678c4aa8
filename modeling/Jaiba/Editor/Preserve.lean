import Jaiba.Editor.RoundTrip

/-!
# What edits leave alone

Whatever is done on the canvas, the export keeps the value of the imported
document at each place that the canvas does not show or that was not edited, so
long as nothing above the place was taken away. A block that only went back to
its defaults still keeps what the editor does not know.
-/

namespace Jaiba.Editor.Yaml
open Jaiba.Lib Jaiba.Lib.Value

/-! ### Blocks that go back to their defaults -/

/-- Of the blocks, those that were drawn and are no more. -/
def Reset (blocks : List String) (baseline : Option Value) (current : Members) (key : String) : Prop :=
  key ∈ blocks ∧ key ∈ Members.keys (membersOf baseline) ∧ key ∉ Members.keys current

instance (blocks : List String) (baseline : Option Value) (current : Members) (key : String) :
    Decidable (Reset blocks baseline current key) := inferInstanceAs (Decidable (_ ∧ _))

theorem lookup_adjusted (keys : List String) (current : Members) (k : String) :
    (keys.foldl (fun c key => Members.put key (.object []) c) current).lookup k =
      if k ∈ keys then some (.object []) else current.lookup k := by
  induction keys generalizing current with
  | nil => simp
  | cons key keys ih =>
    rw [List.foldl_cons, ih, Members.lookup_put]
    by_cases hk : k = key
    · simp [hk]
    · simp [hk]

theorem lookup_cleared (keys : List String) (result : Members) (k : String) :
    (keys.foldl
        (fun result key => if membersOf (result.lookup key) = [] then Members.erase key result else result)
        result).lookup k =
      if k ∈ keys ∧ membersOf (result.lookup k) = [] then none else result.lookup k := by
  induction keys generalizing result with
  | nil => simp
  | cons key keys ih =>
    rw [List.foldl_cons, ih]
    by_cases hempty : membersOf (result.lookup key) = []
    · rw [if_pos hempty, Members.lookup_erase]
      by_cases hk : k = key
      · simp [hk, hempty]
      · simp [hk]
    · rw [if_neg hempty]
      by_cases hk : k = key
      · subst hk
        simp [hempty]
      · simp [hk]

/-- A member of an exported block. -/
theorem lookup_settings (source : Value) (baseline : Option Value) (current : Members) (blocks : List String)
    (k : String) :
    (preserveImportedSettings source baseline current blocks).lookup k =
      if Reset blocks baseline current k then
        let v := mergeAt identity ((membersOf (some source)).lookup k) ((membersOf baseline).lookup k) (some (.object []))
        if membersOf v = [] then none else v
      else mergeAt identity ((membersOf (some source)).lookup k) ((membersOf baseline).lookup k) (current.lookup k) := by
  have hmem : k ∈ blocks.filter (fun key => key ∈ Members.keys (membersOf baseline) && !(key ∈ Members.keys current)) ↔
      Reset blocks baseline current k := by
    rw [List.mem_filter, Bool.and_eq_true, Bool.not_eq_true', decide_eq_true_iff, decide_eq_false_iff_not]
    rfl
  dsimp only [preserveImportedSettings, preserveImported]
  rw [lookup_cleared, lookup_merge, lookup_adjusted]
  simp only [hmem]
  by_cases hreset : Reset blocks baseline current k
  · simp only [hreset, if_true, true_and]
  · simp only [hreset, if_false, false_and]

/-- Inside of a block that may disappear, member by member. -/
theorem lookup_block_settings {source : Value} {baseline : Option Value} {current : Members} {blocks : List String}
    {k : String} (hk : k ∈ blocks) (hobject : ∀ v, current.lookup k = some v → ∃ ms, v = .object ms) (j : String) :
    (membersOf ((preserveImportedSettings source baseline current blocks).lookup k)).lookup j =
      mergeAt identity ((membersOf ((membersOf (some source)).lookup k)).lookup j)
        ((membersOf ((membersOf baseline).lookup k)).lookup j) ((membersOf (current.lookup k)).lookup j) := by
  rw [lookup_settings]
  by_cases hreset : Reset blocks baseline current k
  · rw [if_pos hreset, Members.lookup_eq_none_iff.mpr hreset.2.2]
    have hmember := @lookup_merge _ _ identity ((membersOf (some source)).lookup k) ((membersOf baseline).lookup k) [] j
    dsimp only
    split_ifs with hempty
    · refine Eq.trans ?_ hmember
      rw [mergeAt] at hempty
      rw [hempty]
      rfl
    · exact hmember
  · rw [if_neg hreset]
    cases hc : current.lookup k with
    | some v =>
      obtain ⟨ms, rfl⟩ := hobject v hc
      exact lookup_merge ms j
    | none =>
      have hb : (membersOf baseline).lookup k = none := by
        refine Members.lookup_eq_none_iff.mpr fun hmem => hreset ⟨hk, hmem, ?_⟩
        exact Members.lookup_eq_none_iff.mp hc
      rw [hb]
      rfl

/-! ### Places that are kept -/

/-- A place below which nothing was edited, or one that was not drawn inside of a
block that went back to its defaults. -/
def Kept (blocks : List String) (baseline current : Members) (path : List String) : Prop :=
  Untouched (some (.object baseline)) (some (.object current)) path ∨
    ∃ k j rest, path = k :: j :: rest ∧ Reset blocks (some (.object baseline)) current k ∧
      (membersOf (baseline.lookup k)).lookup j = none

/-- An exported block keeps the imported one at each place that is kept. -/
theorem settings_kept {source baseline current : Members} {blocks path : List String}
    (h : Kept blocks baseline current path) :
    place (some (.object (preserveImportedSettings (.object source) (some (.object baseline)) current blocks))) path =
      place (some (.object source)) path := by
  rcases h with huntouched | ⟨k, j, rest, rfl, hreset, hj⟩
  · cases path with
    | nil => rw [preserve_same huntouched]; rfl
    | cons k path =>
      rcases huntouched with hsame | ⟨-, hrest⟩
      · rw [preserve_same hsame]
        rfl
      · have hnot : ¬ Reset blocks (some (.object baseline)) current k := fun hreset => by
          have hc : child (some (.object current)) (.key k) = none := Members.lookup_eq_none_iff.mpr hreset.2.2
          have hb : child (some (.object baseline)) (.key k) ≠ none := fun hnone =>
            Members.lookup_eq_none_iff.mp hnone hreset.2.1
          rw [hc] at hrest
          have htext : ¬ SameText (child (some (.object baseline)) (.key k)) none := fun htext =>
            hb (Option.map_eq_none_iff.mp htext)
          cases path with
          | nil => exact htext hrest
          | cons j path =>
            rcases hrest with hsame | ⟨⟨ms, hms⟩, -⟩
            · exact htext hsame
            · cases hms
        have hmember : (preserveImportedSettings (.object source) (some (.object baseline)) current blocks).lookup k =
            mergeAt identity (source.lookup k) (baseline.lookup k) (current.lookup k) := by
          rw [lookup_settings, if_neg hnot]
          rfl
        show place ((preserveImportedSettings _ _ _ _).lookup k) path = place (source.lookup k) path
        rw [hmember]
        exact merge_untouched hrest
  · have hmember := @lookup_block_settings (.object source) (some (.object baseline)) current blocks k hreset.1
      (fun v hv => absurd (Members.mem_keys hv) hreset.2.2) j
    have hc : (membersOf (current.lookup k)).lookup j = none := by
      rw [Members.lookup_eq_none_iff.mpr hreset.2.2]
      rfl
    have hb : (membersOf ((membersOf (some (.object baseline))).lookup k)).lookup j = none := hj
    rw [hc, hb] at hmember
    show place ((membersOf ((preserveImportedSettings _ _ _ _).lookup k)).lookup j) rest =
      place ((membersOf (source.lookup k)).lookup j) rest
    rw [hmember]
    rfl

/-! ### The whole export -/

/-- The parts of an export that are those of the imported document: outside of the
processors and connections, in a processor that is still there, and in a
connection that is still there, where all connections could be drawn. -/
structure EditsKept (root out : Members) (canvas : Canvas) (flow : FlowMeta) (nodes : List ProcessorNode)
    (edges : List ConnectionEdge) : Prop where
  settings : ∀ key path, key ≠ "processors" → key ≠ "connections" →
    Untouched (some (drawnFlow canvas.flow canvas.nodes [])) (some (drawnFlow flow nodes [])) (key :: path) →
    place (some (.object out)) (key :: path) = place (some (.object root)) (key :: path)
  processors : ∀ (i j : ℕ) p before node, (objectsOf (root.lookup "processors"))[i]? = some p →
    canvas.nodes[i]? = some before → nodes[j]? = some node → node.id = before.id →
    ∃ block, (itemsOf (out.lookup "processors"))[j]? = some block ∧
      ∀ path, Kept ["scheduling", "retry", "simulation"] (processorBlock before.data) (processorBlock node.data) path →
        place (some block) path = place (some (.object p)) path
  connections : (∀ c ∈ objectsOf (root.lookup "connections"), Joined root c) →
    ∀ (i : ℕ) c before edge drawn current, (objectsOf (root.lookup "connections"))[i]? = some c →
    canvas.edges[i]? = some before → edge ∈ edges → edge.id = before.id →
    connectionBlock canvas.nodes before = some drawn → connectionBlock nodes edge = some current →
    ∃ block ∈ itemsOf (out.lookup "connections"), ∀ path, Kept ["queue"] drawn current path →
      place (some block) path = place (some (.object c)) path

theorem untouched_of_same {baseline current : Option Value} (h : SameText baseline current) (path : List String) :
    Untouched baseline current path := by
  cases path with
  | nil => exact h
  | cons k path => exact .inl h

section edits
variable {text : Value → String} {root : Members} (flow : FlowMeta) (nodes : List ProcessorNode)
  (edges : List ConnectionEdge) (hflow : flow.imported = some (importedOf text root))
include hflow

theorem export_edited :
    buildFlowObject flow nodes edges =
      .object (Members.put "connections" (.array (edges.filterMap (exportConnection flow.imported nodes)))
        (Members.put "processors" (.array (nodes.map (exportProcessor flow.imported)))
          (membersOf (preserveImported (some (.object root)) (some (importedOf text root).baseline)
            (drawnFlow flow nodes (edges.filterMap (exportConnection flow.imported nodes))))))) := by
  dsimp only [buildFlowObject]
  rw [hflow]
  rfl

theorem export_member {key : String} (hp : key ≠ "processors") (hc : key ≠ "connections") :
    child (some (buildFlowObject flow nodes edges)) (.key key) =
      mergeAt identity (root.lookup key) (child (some (drawnFlow (readFlow text root) (readNodes root) [])) (.key key))
        (child (some (drawnFlow flow nodes [])) (.key key)) := by
  rw [export_edited flow nodes edges hflow]
  dsimp only [child, membersOf]
  rw [Members.lookup_put, if_neg hc, Members.lookup_put, if_neg hp]
  refine (lookup_merge _ key).trans ?_
  have hbefore := drawn_member (readFlow text root) (readNodes root)
    ((readEdges root).filterMap (exportConnection none (readNodes root))) hc []
  have hnow := drawn_member flow nodes (edges.filterMap (exportConnection flow.imported nodes)) hc []
  exact congrArg₂ (mergeAt identity (root.lookup key)) hbefore hnow

theorem export_kept {key : String} {path : List String} (hp : key ≠ "processors") (hc : key ≠ "connections")
    (h : Untouched (some (drawnFlow (readFlow text root) (readNodes root) [])) (some (drawnFlow flow nodes []))
      (key :: path)) :
    place (some (buildFlowObject flow nodes edges)) (key :: path) = place (some (.object root)) (key :: path) := by
  have hrest : Untouched (child (some (drawnFlow (readFlow text root) (readNodes root) [])) (.key key))
      (child (some (drawnFlow flow nodes [])) (.key key)) path := by
    rcases h with hsame | ⟨-, hrest⟩
    · exact untouched_of_same (hsame.child (.key key)) path
    · exact hrest
  show place (child (some (buildFlowObject flow nodes edges)) (.key key)) path = place (root.lookup key) path
  rw [export_member flow nodes edges hflow hp hc]
  exact merge_untouched hrest

theorem exportProcessor_kept {i : ℕ} {p : Members} {node : ProcessorNode}
    (hp : (objectsOf (root.lookup "processors"))[i]? = some p) (hid : node.id = (readNode i p).id) {path : List String}
    (h : Kept ["scheduling", "retry", "simulation"] (processorBlock (readProcessor i p)) (processorBlock node.data)
      path) :
    place (some (exportProcessor flow.imported node)) path = place (some (.object p)) path := by
  dsimp only [exportProcessor]
  rw [hflow, Option.bind_some, hid, lookup_processors hp]
  exact settings_kept h

theorem exportConnection_kept (hjoined : ∀ c ∈ objectsOf (root.lookup "connections"), Joined root c) {i : ℕ}
    {c drawn current : Members} {before edge : ConnectionEdge}
    (hc : (objectsOf (root.lookup "connections"))[i]? = some c) (hbefore : (readEdges root)[i]? = some before)
    (hid : edge.id = before.id) (hdrawn : connectionBlock (readNodes root) before = some drawn)
    (hcurrent : connectionBlock nodes edge = some current) :
    ∃ block, exportConnection flow.imported nodes edge = some block ∧
      ∀ path, Kept ["queue"] drawn current path → place (some block) path = place (some (.object c)) path := by
  have hread : readEdge (readNodes root) i c = some before := by
    rw [edges_of_joined hjoined, hc] at hbefore
    exact hbefore
  rw [exportConnection, hcurrent, hflow, Option.bind_some, hid, lookup_connections hjoined hc hread hdrawn]
  exact ⟨_, rfl, fun path h => settings_kept h⟩

end edits

/-- No edit of the canvas reaches what the canvas does not show. -/
theorem edits_keep {text : Value → String} {document : Value} {canvas : Canvas}
    (h : parseFlowYaml text document = .ok canvas) {flow : FlowMeta} (hflow : flow.imported = canvas.flow.imported)
    (nodes : List ProcessorNode) (edges : List ConnectionEdge) :
    ∃ root out, document = .object root ∧ buildFlowObject flow nodes edges = .object out ∧
      EditsKept root out canvas flow nodes edges := by
  obtain ⟨root, rfl, -, rfl⟩ := parseFlowYaml_ok h
  have hexport := export_edited flow nodes edges hflow
  refine ⟨root, _, rfl, hexport, ?_, ?_, ?_⟩
  · intro key path hp hc huntouched
    rw [← hexport]
    exact export_kept flow nodes edges hflow hp hc huntouched
  · intro i j p before node hp hbefore hnode hid
    rw [readNodes_getElem?, hp] at hbefore
    cases hbefore
    refine ⟨exportProcessor flow.imported node, ?_, fun path hkept =>
      exportProcessor_kept flow hflow hp hid hkept⟩
    rw [Members.lookup_put, if_neg (by decide), Members.lookup_put, if_pos rfl, itemsOf, List.getElem?_map, hnode]
    rfl
  · intro hjoined i c before edge drawn current hc hbefore hedge hid hdrawn hcurrent
    obtain ⟨block, hblock, hkept⟩ :=
      exportConnection_kept flow nodes hflow hjoined hc hbefore hid hdrawn hcurrent
    refine ⟨block, ?_, hkept⟩
    rw [Members.lookup_put, if_pos rfl, itemsOf]
    exact List.mem_filterMap.mpr ⟨edge, hedge, hblock⟩

/-- Nodes that change places and go back to the default retries. -/
theorem edits_keep_sample : ∃ canvas, parseFlowYaml (fun _ => "") sampleDocument = .ok canvas ∧
    let nodes := canvas.nodes.reverse.map fun n => { n with data := { n.data with retry := retryDefaults } }
    ∃ root out, sampleDocument = .object root ∧ buildFlowObject canvas.flow nodes canvas.edges = .object out ∧
      EditsKept root out canvas canvas.flow nodes canvas.edges :=
  ⟨_, rfl, edits_keep rfl rfl _ _⟩

end Jaiba.Editor.Yaml
