import Jaiba.Memory.Cold.Refinement

/-!
# Logs as maps

The records of a directory, in the order in which `rebuild_index` reads them, are
calls of `put` and `remove`. A reopened directory of these records, whatever
damage lies between them, reads as the map of the calls.
-/

namespace Jaiba.Memory.Cold
open Jaiba.Lib

variable {codec : Codec} {L : Layout codec} {classes : Set String} {disk : Disk}

/-- The calls the records of a directory stand for. -/
def Layout.ops (L : Layout codec) (disk : Disk) : List Op :=
  disk.paths.flatMap fun path => (L.records path).map Record.op

/-- No record puts a key under a class while it is live under another, in the
order in which the directories are read. -/
def Layout.Agreeing (L : Layout codec) (disk : Disk) : Prop :=
  Replay.replay RecordLocation.className (Dict.empty : Index) (disk.paths.flatMap L.segmentLog) ≠ none

/-- Every log of a class puts a key before it removes it. -/
def Layout.Opens (L : Layout codec) (classes : Set String) (disk : Disk) : Prop :=
  ∀ c ∈ classes, ∀ k, Replay.first (L.log disk (classDirectory codec c)) k ≠ some none

/-! ### Entries and calls -/

/-- The entry and the call of one record of the layout. -/
structure Layout.Tells (L : Layout codec) (e : LogEntry String RecordLocation) (op : Op)
    (r : Record codec) : Prop where
  key : e.key = r.key
  located : ∀ location, e.value = some location → L.At location r
  value : e.value.isSome = r.value.isSome
  op : op = r.op

theorem Layout.tells_records (L : Layout codec) {path : Path} {pre rs : List (Record codec)}
    (hrs : L.records path = pre ++ rs) :
    List.Forall₂ (fun e op => ∃ r ∈ rs, L.Tells e op r)
      (Record.entries path (pre.flatMap Record.bytes).length rs) (rs.map Record.op) := by
  induction rs generalizing pre with
  | nil => exact .nil
  | cons r rs ih =>
    refine .cons ⟨r, List.mem_cons_self, rfl, ?_, by rw [Record.entry, Option.isSome_map], rfl⟩ ?_
    · intro location hl
      obtain ⟨v, -, rfl⟩ := Option.map_eq_some_iff.mp hl
      exact ⟨⟨pre, rs, hrs, rfl⟩, rfl, rfl⟩
    · have hrest := @ih (pre ++ [r]) (by rw [hrs, List.append_assoc, List.singleton_append])
      have hlen : ((pre ++ [r]).flatMap Record.bytes).length =
          (pre.flatMap Record.bytes).length + r.bytes.length := by
        rw [List.flatMap_append, List.length_append, List.flatMap_cons, List.flatMap_nil,
          List.append_nil]
      rw [hlen] at hrest
      refine hrest.imp fun e op hop => ?_
      obtain ⟨r', hr', ht⟩ := hop
      exact ⟨r', List.mem_cons_of_mem r hr', ht⟩

theorem Layout.tells (L : Layout codec) (paths : List Path) :
    List.Forall₂ (fun e op => ∃ path ∈ paths, ∃ r ∈ L.records path, L.Tells e op r)
      (paths.flatMap L.segmentLog) (paths.flatMap fun path => (L.records path).map Record.op) := by
  induction paths with
  | nil => exact .nil
  | cons path paths ih =>
    rw [List.flatMap_cons, List.flatMap_cons]
    refine List.rel_append (R := fun e op => ∃ p ∈ path :: paths, ∃ r ∈ L.records p, L.Tells e op r) ?_ ?_
    · refine (@tells_records _ L path [] _ rfl).imp fun e op hop => ?_
      obtain ⟨r, hr, ht⟩ := hop
      exact ⟨path, List.mem_cons_self, r, hr, ht⟩
    · refine ih.imp fun e op hop => ?_
      obtain ⟨p, hp, hr⟩ := hop
      exact ⟨p, List.mem_cons_of_mem path hp, hr⟩

/-- What a key reads as behind the calls of a log, which started from `map`. -/
structure Layout.Ends (L : Layout codec) (map map' : String → Option ColdEntry)
    (log : List (LogEntry String RecordLocation)) (k : String) : Prop where
  untouched : Replay.last log k = none → map' k = map k
  removed : Replay.last log k = some none → map' k = none
  put : ∀ location, Replay.last log k = some (some location) → ∃ r v, L.At location r ∧ r.key = k ∧
    r.value = some v ∧ map' k = some ⟨r.className, v⟩

theorem Layout.ends_of_tells {log : List (LogEntry String RecordLocation)} {ops : List Op}
    {P : Record codec → Prop} (h : List.Forall₂ (fun e op => ∃ r, P r ∧ L.Tells e op r) log ops)
    (map : String → Option ColdEntry) (k : String) : L.Ends map (ops.foldl Op.apply map) log k := by
  induction h generalizing map with
  | nil =>
    refine ⟨fun _ => rfl, fun hl => ?_, fun location hl => ?_⟩ <;> cases hl
  | @cons e op log ops htell _ ih =>
    obtain ⟨r, -, ht⟩ := htell
    have hrest := ih (op.apply map)
    have happly : op.apply map k =
        if k = r.key then r.value.map fun v => ⟨r.className, v⟩ else map k := by
      rw [ht.op, Record.op]
      cases r.value with
      | some v => exact Function.update_apply ..
      | none => exact Function.update_apply ..
    rw [List.foldl_cons]
    refine ⟨fun hl => ?_, fun hl => ?_, fun location hl => ?_⟩
    · rw [Replay.last, Option.or_eq_none_iff] at hl
      have hne : k ≠ r.key := by
        rintro rfl
        rw [ht.key, if_pos rfl] at hl
        cases hl.2
      rw [hrest.untouched hl.1, happly, if_neg hne]
    · rw [Replay.last, Option.or_eq_some_iff] at hl
      rcases hl with hl | ⟨hl, hlast⟩
      · exact hrest.removed hl
      · obtain ⟨hk, hv⟩ := Option.ite_none_right_eq_some.mp hlast
        have hvalue : r.value = none := by
          have hsome := ht.value
          rw [Option.some.inj hv] at hsome
          exact Option.isNone_iff_eq_none.mp (Option.isSome_eq_false_iff.mp hsome.symm)
        rw [hrest.untouched hl, happly, ← ht.key, if_pos hk.symm, hvalue]
        rfl
    · rw [Replay.last, Option.or_eq_some_iff] at hl
      rcases hl with hl | ⟨hl, hlast⟩
      · exact hrest.put location hl
      · obtain ⟨hk, hv⟩ := Option.ite_none_right_eq_some.mp hlast
        have hv := Option.some.inj hv
        have hsome := ht.value
        rw [hv, Option.isSome_some] at hsome
        obtain ⟨v, hvalue⟩ := Option.isSome_iff_exists.mp hsome.symm
        refine ⟨r, v, ht.located location hv, ht.key.symm.trans hk, hvalue, ?_⟩
        rw [hrest.untouched hl, happly, ← ht.key, if_pos hk.symm, hvalue]
        rfl

/-- The map of a directory and the last entries of its logs. -/
theorem Layout.ends (L : Layout codec) (disk : Disk) (k : String) :
    L.Ends (fun _ => none) (stored (L.ops disk)) (disk.paths.flatMap L.segmentLog) k := by
  refine ends_of_tells (P := fun r => ∃ path, r ∈ L.records path) ?_ _ k
  exact (L.tells disk.paths).imp fun e op ⟨path, _, r, hr, ht⟩ => ⟨r, ⟨path, hr⟩, ht⟩

/-- A record has an entry in the log of its segment. -/
theorem Record.exists_entry (path : Path) {rs : List (Record codec)} {r : Record codec} (hr : r ∈ rs) :
    ∃ e ∈ Record.entries path 0 rs, e.key = r.key := by
  obtain ⟨pre, post, rfl⟩ := List.append_of_mem hr
  rw [Record.entries_append]
  exact ⟨_, List.mem_append_right _ List.mem_cons_self, rfl⟩

/-! ### Reopening -/

/-- The index of a reopened directory. -/
def Layout.ending (L : Layout codec) (disk : Disk) (k : String) : Option RecordLocation :=
  (Replay.last (disk.paths.flatMap L.segmentLog) k).join

variable (root : String)

/-- A directory of records that agree is opened whatever damage lies between
them: it holds these records, and reads as the map of their calls. -/
theorem Layout.Covers.reopens (h : L.Covers classes disk) (hcodec : codec.RoundTrips)
    (hdir : Set.InjOn (classDirectory codec) classes) (hagree : L.Agreeing disk) (options : Options) :
    ∃ s after, openWithLimit root options disk = (.ok s, after) ∧ Cut L disk.paths disk after ∧
      s.writers = Dict.empty ∧ s.maps = Dict.empty ∧
      (∀ k, Dict.get? s.index k = L.ending disk k) ∧
      ∀ key, (s.get codec after key).1 = .ok (stored (L.ops disk) key) := by
  obtain ⟨j, hj⟩ := Option.ne_none_iff_exists'.mp hagree
  obtain ⟨acc, hacc, hget, hcut⟩ := h.rebuild_replay hdir root hj
  have hindex (k : String) : Dict.get? acc.index k = L.ending disk k := by
    rw [hget, Replay.get?_replay hj, Layout.ending, Dict.get?_empty]
    cases Replay.last (disk.paths.flatMap L.segmentLog) k <;> rfl
  rw [openWithLimit, hacc]
  refine ⟨_, _, rfl, hcut, rfl, rfl, hindex, fun key => ?_⟩
  have hends := L.ends disk key
  cases hlast : Replay.last (disk.paths.flatMap L.segmentLog) key with
  | none =>
    rw [SegmentedColdStore.get, hindex, Layout.ending, hlast, hends.untouched hlast]
    rfl
  | some x =>
    cases x with
    | none =>
      rw [SegmentedColdStore.get, hindex, Layout.ending, hlast, hends.removed hlast]
      rfl
    | some location =>
      obtain ⟨r, v, hat, rfl, hv, hstored⟩ := hends.put location hlast
      have hat' : L.cut.At location r := ⟨hat.records, hat.totalLen, hat.className⟩
      rw [hstored]
      refine @Describes.get_at _ _ _ _ (h.cut hcut) hcodec _ location r v ?_ hat' hv fun path n hn => ?_
      · rw [hindex, Layout.ending, hlast]
        rfl
      · rw [Dict.get?_empty] at hn
        cases hn

/-- Only such a directory is opened. -/
theorem Layout.Covers.agreeing_of_open (h : L.Covers classes disk)
    (hdir : Set.InjOn (classDirectory codec) classes) {options : Options} {s : SegmentedColdStore}
    {after : Disk} (hopen : openWithLimit root options disk = (.ok s, after)) : L.Agreeing disk := by
  rw [openWithLimit] at hopen
  split at hopen
  · cases congrArg Prod.fst hopen
  next rebuilt hr =>
    obtain ⟨j, hj⟩ := h.replay_of_rebuild hdir hr
    exact Option.ne_none_iff_exists'.mpr ⟨j, hj⟩

/-- What is opened of a directory that puts before it removes holds its calls. -/
theorem Layout.Covers.held (h : L.Covers classes disk)
    (hdir : Set.InjOn (classDirectory codec) classes) (hopens : L.Opens classes disk)
    (hagree : L.Agreeing disk) {after : Disk} (hcut : Cut L disk.paths disk after) :
    Held codec classes L.cut after (L.ending disk) (L.ops disk) := by
  obtain ⟨cs, hcs, hmem⟩ := h.exists_classes
  have hpaths : disk.paths.flatMap L.segmentLog =
      cs.flatMap fun c => L.log disk (classDirectory codec c) := paths_replay hcs
  have hnodup : cs.Nodup := by
    have hn : disk.dirs.keys.Nodup := disk.dirs.sorted.imp fun hlt => ne_of_lt hlt
    rw [← hcs] at hn
    exact List.Nodup.of_map _ hn
  have hhome : ∀ c ∈ cs, ∀ e ∈ L.log disk (classDirectory codec c), ∀ v, e.value = some v →
      v.className = c := by
    intro c hc e he v hv
    obtain ⟨hv', hd⟩ := h.entry_home he hv
    exact hdir hv' (hmem c hc) hd
  obtain ⟨j, hj⟩ := Option.ne_none_iff_exists'.mp hagree
  rw [hpaths] at hj
  have hordered := Replay.ordered_of_replay hnodup hhome (fun c hc k => hopens c (hmem c hc) k) hj
  have hin {c : String} (hc : c ∈ classes) {e : LogEntry String RecordLocation}
      (he : e ∈ L.log disk (classDirectory codec c)) : c ∈ cs := by
    have hd := mem_dirs_of_log he
    rw [← hcs] at hd
    obtain ⟨c', hc', heq⟩ := List.mem_map.mp hd
    rwa [← hdir (hmem c' hc') hc heq]
  have hending (k : String) : L.ending disk k =
      Replay.ending cs (fun c => L.log disk (classDirectory codec c)) k := by
    rw [Layout.ending, hpaths, Replay.ending]
  have hlive : L.Live classes disk (L.ending disk) := by
    refine ⟨hopens, fun k v hk => ?_, fun c hc k v hlast => ?_⟩
    · rw [hending] at hk
      obtain ⟨hc, hlast⟩ := Replay.last_of_ending hhome hk
      exact ⟨hmem _ hc, hlast⟩
    · obtain ⟨e, he, -⟩ := Replay.exists_of_last hlast
      rw [hending]
      exact hordered.ending_of_last (hin hc he) hlast
  have hput {c : String} {k : String} {v : Value} : .put k c v ∈ L.ops disk ↔
      ∃ path ∈ disk.paths, ∃ r ∈ L.records path, r.key = k ∧ r.className = c ∧ r.value = some v := by
    rw [Layout.ops, List.mem_flatMap]
    refine exists_congr fun path => and_congr_right fun _ => ?_
    rw [List.mem_map]
    refine exists_congr fun r => and_congr_right fun _ => ?_
    rw [Record.op]
    cases r.value <;> simp
  refine ⟨h.cut hcut, hlive.cut hcut, fun k location hk => ?_, fun k hk => ?_, fun c hc k => ?_,
    fun k c v hp => ?_⟩
  · obtain ⟨r, v, hat, hkey, hv, hstored⟩ :=
      (L.ends disk k).put location (Option.join_eq_some_iff.mp hk)
    exact ⟨r, v, ⟨hat.records, hat.totalLen, hat.className⟩, hkey, hv, hstored⟩
  · rw [Layout.ending, Option.join_eq_none_iff] at hk
    rcases hk with hk | hk
    · exact (L.ends disk k).untouched hk
    · exact (L.ends disk k).removed hk
  · rw [cut_log hcut]
    constructor
    · rintro ⟨e, he, rfl⟩
      -- the first entry of the key is a value
      have hsome : Replay.first (L.log disk (classDirectory codec c)) e.key ≠ none := fun hnone =>
        Replay.first_none_iff.mp hnone e he rfl
      obtain ⟨x, hx⟩ := Option.ne_none_iff_exists'.mp hsome
      obtain ⟨location, rfl⟩ : ∃ location, x = some location :=
        Option.ne_none_iff_exists'.mp fun hnone => hopens c hc e.key (hnone ▸ hx)
      obtain ⟨e', he', hkey, hvalue⟩ := Replay.exists_of_first hx
      obtain ⟨id, hid, he'⟩ := mem_log he'
      obtain ⟨pre, r, post, hrs, rfl⟩ := Record.exists_of_mem_entries he'
      obtain ⟨v, hv, -⟩ := Option.map_eq_some_iff.mp hvalue
      have hr : r ∈ L.records ⟨classDirectory codec c, id⟩ := by
        rw [hrs]
        exact List.mem_append_right pre List.mem_cons_self
      obtain ⟨hclass, hd⟩ := h.home _ r hr
      exact ⟨v, hput.mpr ⟨_, Disk.mem_paths_iff.mpr ((Disk.mem_ids_iff _).mp hid), r, hr, hkey,
        hdir hclass hc hd, hv⟩⟩
    · rintro ⟨v, hp⟩
      obtain ⟨path, hpath, r, hr, hkey, rfl, -⟩ := hput.mp hp
      obtain ⟨-, hd⟩ := h.home path r hr
      obtain ⟨e, he, hek⟩ := Record.exists_entry path hr
      have hid := (Disk.mem_ids_iff path).mpr (Disk.mem_paths_iff.mp hpath)
      rw [hd]
      exact ⟨e, List.mem_flatMap.mpr ⟨path.id, hid, he⟩, hek.trans hkey⟩
  · obtain ⟨path, -, r, hr, -, rfl, -⟩ := hput.mp hp
    exact (h.home path r hr).1

end Jaiba.Memory.Cold
