import Mathlib.Data.List.Nodup
import Jaiba.Editor.Yaml
import Jaiba.JsonText

/-!
# Export of an unedited import

The export is the imported document, with an empty list of connections where it
has none, unless the import had to leave something out. A connection whose ends
are no processors is left out, and so are entries that are no objects.
-/

namespace Jaiba.Editor.Yaml
open Jaiba.Lib Jaiba.Lib.Value

/-! ### Ids of the canvas -/

theorem append_injective {front s t : String} (h : front ++ s = front ++ t) : s = t := by
  have hlist := congrArg String.toList h
  rw [String.toList_append, String.toList_append] at hlist
  exact String.toList_injective (List.append_cancel_left hlist)

theorem edgeId_injective {i j : ℕ} (h : "import_edge_" ++ toString i = "import_edge_" ++ toString j) : i = j :=
  nat_repr_injective (append_injective h)

/-- The digits of a number end at the first underscore. -/
theorem digits_injective {i j : ℕ} {s t : String} (h : toString i ++ "_" ++ s = toString j ++ "_" ++ t) : i = j := by
  have hdigits : ∀ (n : ℕ) (u : String), (toString n ++ "_" ++ u).toList.takeWhile Char.isDigit = n.repr.toList := by
    intro n u
    rw [String.append_assoc, String.toList_append, String.toList_append]
    have hall : ∀ c ∈ (toString n).toList, c.isDigit = true := fun c hc => isDigit_of_mem_repr hc
    rw [List.takeWhile_append_of_pos hall]
    have hstop : ("_".toList ++ u.toList).takeWhile Char.isDigit = [] := rfl
    rw [hstop, List.append_nil]
    rfl
  have hlist : i.repr.toList = j.repr.toList := by rw [← hdigits i s, ← hdigits j t, h]
  exact nat_repr_injective (String.toList_injective hlist)

theorem nodeId_injective {i j : ℕ} {p q : Members} (h : (readNode i p).id = (readNode j q).id) : i = j := by
  have happend : ∀ (n : ℕ) (s : String), "import_" ++ toString n ++ "_" ++ s = "import_" ++ (toString n ++ "_" ++ s) :=
    fun n s => by simp only [String.append_assoc]
  dsimp only [readNode] at h
  rw [happend, happend] at h
  exact digits_injective (append_injective h)

/-- A list whose items tell their indices has none twice. -/
theorem nodup_of_index {α : Type} {l : List α} (h : ∀ (i j : ℕ) a, l[i]? = some a → l[j]? = some a → i = j) :
    l.Nodup := by
  rw [List.nodup_iff_getElem?_ne_getElem?]
  intro i j hij hj heq
  have hi := List.getElem?_eq_getElem (hij.trans hj)
  exact absurd (h i j _ hi (heq.symm.trans hi)) hij.ne

/-! ### The members of a block -/

theorem lookup_block {fields : List (String × Option Value)} (h : (Members.keys fields).Nodup) (k : String) :
    (block fields).lookup k = (fields.lookup k).join := by
  induction fields with
  | nil => rfl
  | cons field fields ih =>
    obtain ⟨hnot, hrest⟩ := List.nodup_cons.mp h
    obtain ⟨j, v⟩ := field
    rw [block, List.filterMap_cons, Members.lookup_cons]
    cases v with
    | none =>
      have hlookup : (block fields).lookup k = (fields.lookup k).join := ih hrest
      dsimp only [Option.map_none]
      by_cases hk : k = j
      · rw [if_pos hk, ← block, hlookup, hk, Members.lookup_eq_none_iff.mpr hnot]
        rfl
      · rw [if_neg hk, ← block, hlookup]
    | some v =>
      dsimp only [Option.map_some]
      rw [Members.lookup_cons, ← block, ih hrest]
      by_cases hk : k = j
      · simp [hk]
      · simp [hk]

theorem drawn_member (flow : FlowMeta) (nodes : List ProcessorNode) (connections : List Value) {k : String}
    (hk : k ≠ "connections") (others : List Value) :
    (membersOf (some (drawnFlow flow nodes connections))).lookup k =
      (membersOf (some (drawnFlow flow nodes others))).lookup k := by
  dsimp only [drawnFlow, membersOf]
  rw [lookup_block (by simp [Members.keys]), lookup_block (by simp [Members.keys])]
  simp only [Members.lookup_cons, hk, if_false]

theorem drawn_processors (flow : FlowMeta) (nodes : List ProcessorNode) (connections : List Value) :
    itemsOf ((membersOf (some (drawnFlow flow nodes connections))).lookup "processors") =
      nodes.map fun node => .object (processorBlock node.data) := by
  dsimp only [drawnFlow, membersOf]
  rw [lookup_block (by simp [Members.keys])]
  rfl

theorem drawn_lookup_connections (flow : FlowMeta) (nodes : List ProcessorNode) (connections : List Value) :
    (membersOf (some (drawnFlow flow nodes connections))).lookup "connections" =
      if connections ≠ [] then some (.array connections) else none := by
  dsimp only [drawnFlow, membersOf]
  rw [lookup_block (by simp [Members.keys])]
  rfl

theorem drawn_connections (flow : FlowMeta) (nodes : List ProcessorNode) (connections : List Value) :
    itemsOf ((membersOf (some (drawnFlow flow nodes connections))).lookup "connections") = connections := by
  rw [drawn_lookup_connections]
  cases connections <;> rfl

/-! ### The copies -/

section root
variable {text : Value → String} {root : Members}

theorem readNodes_getElem? (i : ℕ) :
    (readNodes root)[i]? = (objectsOf (root.lookup "processors"))[i]?.map (readNode i) :=
  List.getElem?_mapIdx

theorem nodup_nodes (root : Members) : ((readNodes root).map ProcessorNode.id).Nodup := by
  have hid : ∀ (i : ℕ) id, ((readNodes root).map ProcessorNode.id)[i]? = some id → ∃ p, id = (readNode i p).id := by
    intro i id h
    rw [List.getElem?_map, readNodes_getElem?] at h
    cases hp : (objectsOf (root.lookup "processors"))[i]? with
    | none =>
      rw [hp] at h
      cases h
    | some p =>
      rw [hp] at h
      exact ⟨p, (Option.some_inj.mp h).symm⟩
  refine nodup_of_index fun i j id hi hj => ?_
  obtain ⟨p, hp⟩ := hid i id hi
  obtain ⟨q, hq⟩ := hid j id hj
  exact nodeId_injective (hp.symm.trans hq)

/-- Entries that are made of two lists, under the ids of the first. -/
theorem lookup_copies {α β γ : Type} {xs : List α} {ys : List β} {name : α → String} {value : ℕ → β → γ}
    (hnodup : (xs.map name).Nodup) (hle : xs.length ≤ ys.length) {i : ℕ} {x : α} {y : β} (hx : xs[i]? = some x)
    (hy : ys[i]? = some y) :
    (Members.fromEntries ((xs.zip ys).mapIdx fun index p => (name p.1, value index p.2))).lookup (name x) =
      some (value i y) := by
  have hkeys : Members.keys ((xs.zip ys).mapIdx fun index p => (name p.1, value index p.2)) = xs.map name := by
    rw [← List.map_fst_zip hle, List.map_map]
    refine List.ext_getElem? fun j => ?_
    rw [Members.keys, List.getElem?_map, List.getElem?_map, List.getElem?_mapIdx, List.map_fst_zip hle, Option.map_map]
    rfl
  refine Members.fromEntries_of_mem (hkeys ▸ hnodup) (List.mem_of_getElem? (i := i) ?_)
  rw [List.getElem?_mapIdx, List.getElem?_zip_eq_some (z := (x, y)) |>.mpr ⟨hx, hy⟩]
  rfl

theorem lookup_processors {i : ℕ} {p : Members} (h : (objectsOf (root.lookup "processors"))[i]? = some p) :
    (importedOf text root).processors.lookup (readNode i p).id =
      some ⟨.object p, some (.object (processorBlock (readProcessor i p)))⟩ := by
  have hnode : (readNodes root)[i]? = some (readNode i p) := by rw [readNodes_getElem?, h]; rfl
  have hlength : (readNodes root).length ≤ (objectsOf (root.lookup "processors")).length := List.length_mapIdx.le
  have hcopy := @lookup_copies _ _ _ _ _ ProcessorNode.id
    (fun index p => Original.mk (.object p)
      (itemsOf ((membersOf (some (importedOf text root).baseline)).lookup "processors"))[index]?)
    (nodup_nodes root) hlength i _ p hnode h
  refine hcopy.trans ?_
  dsimp only [importedOf, buildFlowObject, readFlow]
  rw [drawn_processors, List.getElem?_map, hnode]
  rfl

/-! ### Blocks that were not edited -/

theorem preserve_same {source : Value} {baseline current : Members} {blocks : List String}
    (h : SameText (some (.object baseline)) (some (.object current))) :
    preserveImportedSettings source (some (.object baseline)) current blocks = membersOf (some source) := by
  have hnone : (blocks.filter fun key => key ∈ Members.keys (membersOf (some (.object baseline))) &&
      !(key ∈ Members.keys current)) = [] := by
    refine List.filter_eq_nil_iff.mpr fun key _ hreset => ?_
    obtain ⟨hbefore, hnow⟩ := Bool.and_eq_true_iff.mp hreset
    have hmem : key ∈ Members.keys current := h.keys ▸ of_decide_eq_true hbefore
    rw [decide_eq_true hmem] at hnow
    cases hnow
  dsimp only [preserveImportedSettings]
  rw [hnone, List.foldl_nil, List.foldl_nil, preserveImported, merge_same h]

theorem exported_processors :
    (readNodes root).map (exportProcessor (some (importedOf text root))) =
      (objectsOf (root.lookup "processors")).map .object := by
  refine List.ext_getElem? fun i => ?_
  rw [List.getElem?_map, List.getElem?_map, readNodes_getElem?]
  cases h : (objectsOf (root.lookup "processors"))[i]? with
  | none => rfl
  | some p =>
    rw [Option.map_some, Option.map_some, Option.map_some, exportProcessor, Option.bind_some, lookup_processors h]
    exact congrArg (fun ms => some (Value.object ms)) (preserve_same (.refl _))

/-! ### Connections -/

/-- Both ends are the ids of processors, and not empty. -/
def Joined (root connection : Members) : Prop :=
  ∀ side ∈ ["from", "to"], ∃ name, connection.lookup side = some (.string name) ∧ name ≠ "" ∧
    name ∈ (readNodes root).map fun n => n.data.processorId

theorem idByNode_of_mem {n : ProcessorNode} (h : n ∈ readNodes root) :
    idByNode (readNodes root) n.id = some n.data.processorId := by
  rw [idByNode, List.map_reverse]
  refine Members.lookup_reverse_of_mem ?_ (List.mem_map_of_mem h)
  rw [Members.keys, List.map_map]
  exact nodup_nodes root

theorem nodeByProcessor_some {id node : String} (h : nodeByProcessor (readNodes root) id = some node) :
    idByNode (readNodes root) node = some id := by
  obtain ⟨n, hn, heq⟩ := List.mem_map.mp (Members.mem_of_lookup h)
  cases heq
  exact idByNode_of_mem (List.mem_reverse.mp hn)

theorem nodeByProcessor_isSome {id : String} :
    (nodeByProcessor (readNodes root) id).isSome ↔ id ∈ (readNodes root).map fun n => n.data.processorId := by
  have hkeys : Members.keys ((readNodes root).reverse.map fun n => (n.data.processorId, n.id)) =
      ((readNodes root).map fun n => n.data.processorId).reverse := by
    rw [Members.keys, List.map_map, ← List.map_reverse]
    rfl
  rw [← List.mem_reverse, ← hkeys, ← not_iff_not, ← Members.lookup_eq_none_iff, Bool.not_eq_true,
    Option.isSome_eq_false_iff, Option.isNone_iff_eq_none]
  rfl

/-- A drawn edge that is exported comes of a connection with two good ends, and is named by its index. -/
theorem readEdge_some {i : ℕ} {c : Members} {e : ConnectionEdge} (h : readEdge (readNodes root) i c = some e) :
    e.id = "import_edge_" ++ toString i ∧
      idByNode (readNodes root) e.source = some (stringOr (c.lookup "from") "") ∧
      idByNode (readNodes root) e.target = some (stringOr (c.lookup "to") "") := by
  unfold readEdge at h
  split at h
  next source target hs ht =>
    cases h
    exact ⟨rfl, nodeByProcessor_some hs, nodeByProcessor_some ht⟩
  next => cases h

theorem named_of_stringOr {v : Option Value} (h : stringOr v "" ≠ "") : v = some (.string (stringOr v "")) := by
  unfold stringOr at h ⊢
  split
  · rfl
  · simp_all

theorem joined_iff {i : ℕ} {c : Members} :
    Joined root c ↔ ∃ e b, readEdge (readNodes root) i c = some e ∧ connectionBlock (readNodes root) e = some b := by
  constructor
  · intro h
    obtain ⟨origin, horigin, hne, hmem⟩ := h "from" (by simp)
    obtain ⟨target, htarget, hne', hmem'⟩ := h "to" (by simp)
    obtain ⟨source, hs⟩ := Option.isSome_iff_exists.mp (nodeByProcessor_isSome.mpr hmem)
    obtain ⟨sink, ht⟩ := Option.isSome_iff_exists.mp (nodeByProcessor_isSome.mpr hmem')
    have hedge : ∃ e, readEdge (readNodes root) i c = some e := by
      unfold readEdge
      rw [horigin, htarget]
      dsimp only [stringOr]
      rw [hs, ht]
      exact ⟨_, rfl⟩
    obtain ⟨e, he⟩ := hedge
    obtain ⟨-, hes, het⟩ := readEdge_some he
    have hblock : ∃ b, connectionBlock (readNodes root) e = some b := by
      unfold connectionBlock
      rw [hes, het, horigin, htarget]
      dsimp only [stringOr]
      rw [if_neg (by simp [hne, hne'])]
      exact ⟨_, rfl⟩
    obtain ⟨b, hb⟩ := hblock
    exact ⟨e, b, he, hb⟩
  · rintro ⟨e, b, he, hb⟩
    obtain ⟨-, hs, ht⟩ := readEdge_some he
    unfold connectionBlock at hb
    rw [hs, ht] at hb
    dsimp only at hb
    have hempty : ¬ (stringOr (c.lookup "from") "" = "" ∨ stringOr (c.lookup "to") "" = "") := fun hempty => by
      rw [if_pos hempty] at hb
      cases hb
    obtain ⟨hne, hne'⟩ := not_or.mp hempty
    unfold readEdge at he
    split at he
    next source target hsource htarget =>
      intro side hside
      simp only [List.mem_cons, List.not_mem_nil, or_false] at hside
      rcases hside with rfl | rfl
      · exact ⟨_, named_of_stringOr hne, hne, nodeByProcessor_isSome.mp (by rw [hsource]; rfl)⟩
      · exact ⟨_, named_of_stringOr hne', hne', nodeByProcessor_isSome.mp (by rw [htarget]; rfl)⟩
    next => cases he

theorem exportConnection_isSome {imported : Option Imported} {nodes : List ProcessorNode} {e : ConnectionEdge} :
    exportConnection imported nodes e ≠ none ↔ ∃ b, connectionBlock nodes e = some b := by
  rw [exportConnection, ne_eq, Option.map_eq_none_iff, ← ne_eq, Option.ne_none_iff_exists']

/-- All connections are exported where all are joined, else fewer. -/
theorem exported_length (imported : Option Imported) :
    ((readEdges root).filterMap (exportConnection imported (readNodes root))).length =
        (objectsOf (root.lookup "connections")).length ↔
      ∀ c ∈ objectsOf (root.lookup "connections"), Joined root c := by
  let edges := (objectsOf (root.lookup "connections")).mapIdx (readEdge (readNodes root))
  let exported : Option ConnectionEdge → Option Value := fun e => e.bind (exportConnection imported (readNodes root))
  have hlength : edges.length = (objectsOf (root.lookup "connections")).length := List.length_mapIdx
  have hcompose : (readEdges root).filterMap (exportConnection imported (readNodes root)) = edges.filterMap exported :=
    List.filterMap_filterMap
  have hle : (edges.filterMap exported).length ≤ edges.length := List.length_filterMap_le exported edges
  have hlt := @List.length_filterMap_lt_length_iff_exists _ _ edges exported
  rw [hcompose, ← hlength]
  constructor
  · intro heq c hc
    obtain ⟨i, hi⟩ := List.mem_iff_getElem?.mp hc
    have hmem : readEdge (readNodes root) i c ∈ edges := by
      refine List.mem_of_getElem? (i := i) ?_
      rw [List.getElem?_mapIdx, hi]
      rfl
    have hsome : exported (readEdge (readNodes root) i c) ≠ none := fun hnone => by
      have := hlt.mpr ⟨_, hmem, hnone⟩
      omega
    obtain ⟨v, hv⟩ := Option.ne_none_iff_exists'.mp hsome
    obtain ⟨e, he, hexport⟩ := Option.bind_eq_some_iff.mp hv
    obtain ⟨b, hb⟩ := exportConnection_isSome.mp (by rw [hexport]; nofun)
    exact joined_iff.mpr ⟨e, b, he, hb⟩
  · intro h
    have hnot : ¬ (edges.filterMap exported).length < edges.length := fun hless => by
      obtain ⟨x, hx, hnone⟩ := hlt.mp hless
      obtain ⟨i, hi⟩ := List.mem_iff_getElem?.mp hx
      rw [List.getElem?_mapIdx] at hi
      obtain ⟨c, hc, rfl⟩ := Option.map_eq_some_iff.mp hi
      obtain ⟨e, b, he, hb⟩ := joined_iff.mp (h c (List.mem_of_getElem? hc))
      dsimp only [exported] at hnone
      rw [he] at hnone
      exact exportConnection_isSome.mpr ⟨b, hb⟩ hnone
    omega

theorem getElem?_filterMap {α β : Type} {f : α → Option β} {l : List α} (h : ∀ x ∈ l, f x ≠ none) (i : ℕ) :
    (l.filterMap f)[i]? = l[i]?.bind f := by
  induction l generalizing i with
  | nil => rfl
  | cons x l ih =>
    obtain ⟨b, hb⟩ := Option.ne_none_iff_exists'.mp (h x List.mem_cons_self)
    rw [List.filterMap_cons_some hb]
    cases i with
    | zero => exact hb.symm
    | succ i => exact ih (fun y hy => h y (List.mem_cons_of_mem _ hy)) i

/-- With all connections joined, the edges are the connections one by one. -/
theorem edges_of_joined (h : ∀ c ∈ objectsOf (root.lookup "connections"), Joined root c) (i : ℕ) :
    (readEdges root)[i]? = (objectsOf (root.lookup "connections"))[i]?.bind (readEdge (readNodes root) i) := by
  rw [readEdges, getElem?_filterMap, List.getElem?_mapIdx]
  · cases (objectsOf (root.lookup "connections"))[i]? <;> rfl
  · intro x hx
    obtain ⟨j, hj⟩ := List.mem_iff_getElem?.mp hx
    rw [List.getElem?_mapIdx] at hj
    obtain ⟨c, hc, rfl⟩ := Option.map_eq_some_iff.mp hj
    obtain ⟨e, -, he, -⟩ := joined_iff.mp (h c (List.mem_of_getElem? hc))
    rw [he]
    nofun

theorem exported_getElem? (h : ∀ c ∈ objectsOf (root.lookup "connections"), Joined root c)
    (imported : Option Imported) (i : ℕ) :
    ((readEdges root).filterMap (exportConnection imported (readNodes root)))[i]? =
      (readEdges root)[i]?.bind (exportConnection imported (readNodes root)) := by
  refine getElem?_filterMap (fun e he => ?_) i
  obtain ⟨j, hj⟩ := List.mem_iff_getElem?.mp he
  rw [edges_of_joined h] at hj
  obtain ⟨c, hc, hread⟩ := Option.bind_eq_some_iff.mp hj
  obtain ⟨e', b, he', hb⟩ := joined_iff.mp (h c (List.mem_of_getElem? hc))
  cases hread.symm.trans he'
  exact exportConnection_isSome.mpr ⟨b, hb⟩

/-- The copy of an edge is its connection. -/
theorem lookup_connections (h : ∀ c ∈ objectsOf (root.lookup "connections"), Joined root c) {i : ℕ} {c : Members}
    {e : ConnectionEdge} {b : Members} (hc : (objectsOf (root.lookup "connections"))[i]? = some c)
    (he : readEdge (readNodes root) i c = some e) (hb : connectionBlock (readNodes root) e = some b) :
    (importedOf text root).connections.lookup e.id = some ⟨.object c, some (.object b)⟩ := by
  have hedge : (readEdges root)[i]? = some e := by
    rw [edges_of_joined h, hc]
    exact he
  have hid : ∀ (j : ℕ) name, ((readEdges root).map ConnectionEdge.id)[j]? = some name →
      name = "import_edge_" ++ toString j := by
    intro j name hname
    rw [List.getElem?_map, edges_of_joined h] at hname
    obtain ⟨x, hx, rfl⟩ := Option.map_eq_some_iff.mp hname
    obtain ⟨y, -, hy⟩ := Option.bind_eq_some_iff.mp hx
    exact (readEdge_some hy).1
  have hnodup : ((readEdges root).map ConnectionEdge.id).Nodup :=
    nodup_of_index fun j k name hj hk => edgeId_injective ((hid j name hj).symm.trans (hid k name hk))
  have hlength : (readEdges root).length ≤ (objectsOf (root.lookup "connections")).length :=
    (List.length_filterMap_le _ _).trans List.length_mapIdx.le
  have hcopy := @lookup_copies _ _ _ _ _ ConnectionEdge.id
    (fun index p => Original.mk (.object p)
      (itemsOf ((membersOf (some (importedOf text root).baseline)).lookup "connections"))[index]?)
    hnodup hlength i _ c hedge hc
  refine hcopy.trans ?_
  dsimp only [importedOf, buildFlowObject, readFlow]
  rw [drawn_connections, exported_getElem? h, hedge, Option.bind_some, exportConnection, hb]
  rfl

/-- With all connections joined, each is exported as it was imported. -/
theorem exported_connections (h : ∀ c ∈ objectsOf (root.lookup "connections"), Joined root c) :
    (readEdges root).filterMap (exportConnection (some (importedOf text root)) (readNodes root)) =
      (objectsOf (root.lookup "connections")).map .object := by
  refine List.ext_getElem? fun i => ?_
  rw [exported_getElem? h, edges_of_joined h, List.getElem?_map]
  cases hc : (objectsOf (root.lookup "connections"))[i]? with
  | none => rfl
  | some c =>
    obtain ⟨e, b, he, hb⟩ := joined_iff.mp (h c (List.mem_of_getElem? hc))
    rw [Option.bind_some, he, Option.bind_some, exportConnection, hb, Option.map_some, Option.bind_some,
      lookup_connections h hc he hb]
    exact congrArg (fun ms => some (Value.object ms)) (preserve_same (.refl _))

end root

/-! ### The whole document -/

/-- The document with an empty list of connections where it has none. -/
def withConnections (root : Members) : Members :=
  if (root.lookup "connections").isSome then root else Members.put "connections" (.array []) root

/-- Nothing of the document is left out on the canvas. -/
def Whole (root : Members) : Prop :=
  (∀ item ∈ itemsOf (root.lookup "processors"), ∃ ms, item = .object ms) ∧
    (root.lookup "connections" = none ∨
      ∃ items, root.lookup "connections" = some (.array items) ∧ ∀ item ∈ items, Joined root (membersOf (some item)))


theorem parseFlowYaml_ok {text : Value → String} {document : Value} {canvas : Canvas}
    (h : parseFlowYaml text document = .ok canvas) :
    ∃ root, document = .object root ∧ objectsOf (root.lookup "processors") ≠ [] ∧
      canvas = ⟨{ readFlow text root with imported := some (importedOf text root) }, readNodes root, readEdges root⟩ := by
  unfold parseFlowYaml at h
  dsimp only at h
  split_ifs at h with hempty
  cases document with
  | object root => exact ⟨root, rfl, hempty, (Except.ok.inj h).symm⟩
  | _ => exact absurd rfl hempty

section whole
variable {text : Value → String} {root : Members}

/-- The export of what was imported. -/
theorem export_unedited :
    buildFlowObject { readFlow text root with imported := some (importedOf text root) } (readNodes root)
        (readEdges root) =
      .object (Members.put "connections"
        (.array ((readEdges root).filterMap (exportConnection (some (importedOf text root)) (readNodes root))))
        (Members.put "processors" (.array ((objectsOf (root.lookup "processors")).map .object))
          (membersOf (preserveImported (some (.object root)) (some (importedOf text root).baseline)
            (drawnFlow { readFlow text root with imported := some (importedOf text root) } (readNodes root)
              ((readEdges root).filterMap
                (exportConnection (some (importedOf text root)) (readNodes root)))))))) := by
  dsimp only [buildFlowObject]
  rw [exported_processors]
  rfl

theorem objectsOf_object {items : List Value} (h : ∀ item ∈ items, ∃ ms, item = .object ms) :
    (objectsOf (some (.array items))).map .object = items := by
  rw [objectsOf, itemsOf, List.map_map]
  refine (List.map_congr_left fun item hitem => ?_).trans (List.map_id _)
  obtain ⟨ms, rfl⟩ := h item hitem
  rfl

theorem object_of_joined {item : Value} (h : Joined root (membersOf (some item))) : ∃ ms, item = .object ms := by
  obtain ⟨name, hname, -, -⟩ := h "from" (by simp)
  cases item with
  | object ms => exact ⟨ms, rfl⟩
  | _ => cases hname

theorem array_of_objectsOf {v : Option Value} (h : objectsOf v ≠ []) : ∃ items, v = some (.array items) := by
  cases v with
  | none => exact absurd rfl h
  | some v =>
    cases v with
    | array items => exact ⟨items, rfl⟩
    | _ => exact absurd rfl h

/-- Merged, an unedited canvas sets no member of the document but the connections. -/
theorem merged_unedited (h : ∀ c ∈ objectsOf (root.lookup "connections"), Joined root c) (flow : FlowMeta)
    (hflow : flow = { readFlow text root with imported := some (importedOf text root) }) :
    let result := membersOf (preserveImported (some (.object root)) (some (importedOf text root).baseline)
      (drawnFlow flow (readNodes root)
        ((readEdges root).filterMap (exportConnection (some (importedOf text root)) (readNodes root)))))
    result = root ∨ ∃ x, (root.lookup "connections").isSome ∧ result = Members.put "connections" x root := by
  have hbaseline : (importedOf text root).baseline = drawnFlow flow (readNodes root)
      ((readEdges root).filterMap (exportConnection none (readNodes root))) := by
    subst hflow
    rfl
  have hplain := (exported_length none).mpr h
  have hmerged := (exported_length (some (importedOf text root))).mpr h
  generalize (readEdges root).filterMap (exportConnection none (readNodes root)) = plain at hbaseline hplain
  generalize (readEdges root).filterMap (exportConnection (some (importedOf text root)) (readNodes root)) = merged
    at hmerged ⊢
  rw [hbaseline]
  refine merge_frame (fun k hk => ?_) ?_
  · have hmember := drawn_member flow (readNodes root) plain hk merged
    rw [hmember]
    exact .refl _
  · have hdrawn := drawn_lookup_connections flow (readNodes root)
    by_cases hempty : objectsOf (root.lookup "connections") = []
    · rw [hempty] at hplain hmerged
      obtain rfl := List.length_eq_zero_iff.mp hplain
      obtain rfl := List.length_eq_zero_iff.mp hmerged
      exact .inl ⟨hdrawn [], hdrawn []⟩
    · right
      obtain ⟨items, hitems⟩ := array_of_objectsOf hempty
      have hne : merged ≠ [] := fun heq => by
        rw [heq] at hmerged
        exact hempty (List.length_eq_zero_iff.mp hmerged.symm)
      have hright := hdrawn merged
      rw [if_pos hne] at hright
      refine ⟨?_, ?_⟩
      · show (root.lookup "connections").isSome
        rw [hitems]
        rfl
      · exact (congrArg Option.isSome hright).trans rfl

theorem export_of_whole (hne : objectsOf (root.lookup "processors") ≠ []) (h : Whole root) :
    buildFlowObject { readFlow text root with imported := some (importedOf text root) } (readNodes root)
        (readEdges root) = .object (withConnections root) := by
  obtain ⟨hobjects, hconnections⟩ := h
  obtain ⟨items, hitems⟩ := array_of_objectsOf hne
  have hprocessors : (objectsOf (root.lookup "processors")).map .object = items := by
    rw [hitems] at hobjects ⊢
    exact objectsOf_object hobjects
  have hjoined : ∀ c ∈ objectsOf (root.lookup "connections"), Joined root c := by
    rcases hconnections with hnone | ⟨edges, hedges, hjoined⟩
    · rw [hnone]
      nofun
    · rw [hedges]
      intro c hc
      obtain ⟨item, hitem, rfl⟩ := List.mem_map.mp hc
      exact hjoined item hitem
  have hmerged := @merged_unedited text root hjoined _ rfl
  have hset : ∀ (connections : Value) (result : Members),
      (result = root ∨ ∃ x, (root.lookup "connections").isSome ∧ result = Members.put "connections" x root) →
      Members.put "connections" connections (Members.put "processors" (.array items) result) =
        Members.put "connections" connections root := by
    rintro connections result (rfl | ⟨x, hsome, rfl⟩)
    · rw [Members.put_self hitems]
    · have hkept : (Members.put "connections" x root).lookup "processors" = some (.array items) := by
        rw [Members.lookup_put, if_neg (by decide), hitems]
      rw [Members.put_self hkept, Members.put_put hsome]
  rw [export_unedited, hprocessors, hset _ _ hmerged, exported_connections hjoined, withConnections]
  rcases hconnections with hnone | ⟨edges, hedges, hall⟩
  · rw [hnone]
    rfl
  · rw [hedges, objectsOf_object fun item hitem => object_of_joined (hall item hitem), Members.put_self hedges]
    rfl

theorem whole_of_export (hne : objectsOf (root.lookup "processors") ≠ [])
    (h : buildFlowObject { readFlow text root with imported := some (importedOf text root) } (readNodes root)
      (readEdges root) = .object (withConnections root)) : Whole root := by
  rw [export_unedited] at h
  have hroot := Value.object.inj h
  obtain ⟨items, hitems⟩ := array_of_objectsOf hne
  have hprocessors := congrArg (List.lookup "processors") hroot
  have hconnections := congrArg (List.lookup "connections") hroot
  rw [Members.lookup_put, if_neg (by decide), Members.lookup_put, if_pos rfl] at hprocessors
  rw [Members.lookup_put, if_pos rfl] at hconnections
  refine ⟨?_, ?_⟩
  · have hsame : (withConnections root).lookup "processors" = some (.array items) := by
      rw [withConnections]
      split_ifs
      · exact hitems
      · rw [Members.lookup_put, if_neg (by decide), hitems]
    rw [hsame] at hprocessors
    rw [hitems]
    intro item hitem
    have hmem : item ∈ (objectsOf (root.lookup "processors")).map Value.object :=
      Value.array.inj (Option.some_inj.mp hprocessors) ▸ hitem
    obtain ⟨ms, -, rfl⟩ := List.mem_map.mp hmem
    exact ⟨ms, rfl⟩
  · cases hc : root.lookup "connections" with
    | none => exact .inl rfl
    | some v =>
      right
      rw [withConnections, hc, Option.isSome_some, if_pos rfl, hc] at hconnections
      cases hconnections
      refine ⟨_, rfl, fun item hitem => ?_⟩
      have hlength := @exported_length root (some (importedOf text root))
      refine hlength.mp ?_ _ ?_
      · rw [hc, objectsOf, List.length_map]
        rfl
      · rw [hc]
        exact List.mem_map_of_mem hitem

end whole

/-- Two processors, options that the editor does not know and a connection. -/
def sampleRoot : Members := [
  ("id", .string "pedidos"), ("labels", .array [.string "a"]),
  ("processors", .array [
    .object [("id", .string "leer"), ("type", .string "read_file"), ("config", .object [("path", .string "x.csv")]),
      ("retry", .object [("maximum_attempts", .number (.finite 3)), ("jitter", .bool true)])],
    .object [("id", .string "grabar"), ("type", .string "write_file"), ("notes", .null)]]),
  ("connections", .array [
    .object [("from", .string "leer"), ("to", .string "grabar"), ("priority", .number (.finite 2))]])]

def sampleDocument : Value := .object sampleRoot

end Jaiba.Editor.Yaml
