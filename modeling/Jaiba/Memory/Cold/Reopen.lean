import Jaiba.Memory.Cold.Store

/-!
# Reopening a Cold directory

A `Layout` gives the whole records of every segment and what a failed append
left behind them. On a directory with a layout `rebuild_index` replays the logs
of the classes in the order of their directories, and it cuts the tails off.
-/

namespace Jaiba.Memory.Cold
open Jaiba.Lib

variable {codec : Codec}

/-- The records of each segment, and the bytes behind them. -/
structure Layout (codec : Codec) where
  records : Path → List (Record codec)
  tail : Path → Bytes

namespace Layout

def bytes (L : Layout codec) (path : Path) : Bytes := (L.records path).flatMap Record.bytes

def segmentLog (L : Layout codec) (path : Path) : List (LogEntry String RecordLocation) :=
  Record.entries path 0 (L.records path)

/-- The log of a class: its segments in the order of their identifiers. -/
def log (L : Layout codec) (disk : Disk) (dir : String) : List (LogEntry String RecordLocation) :=
  (disk.ids dir).flatMap fun id => L.segmentLog ⟨dir, id⟩

/-- `L` is the layout of the files on `disk`, which are all of `classes`. -/
structure Describes (L : Layout codec) (classes : Set String) (disk : Disk) : Prop where
  file : ∀ path bytes, disk.file? path = some bytes → bytes = L.bytes path ++ L.tail path
  absent : ∀ path, disk.file? path = none → L.records path = [] ∧ L.tail path = []
  torn : ∀ path, Torn codec (L.tail path)
  home : ∀ path, ∀ r ∈ L.records path, r.className ∈ classes ∧ classDirectory codec r.className = path.dir
  dirs : ∀ name ∈ disk.dirs.keys, ∃ c ∈ classes, classDirectory codec c = name

/-- The files on `disk`, which are all of `classes`, are the records of `L` and damage. -/
structure Covers (L : Layout codec) (classes : Set String) (disk : Disk) : Prop where
  file : ∀ path bytes, disk.file? path = some bytes → Damaged (L.records path) bytes
  absent : ∀ path, disk.file? path = none → L.records path = []
  home : ∀ path, ∀ r ∈ L.records path, r.className ∈ classes ∧ classDirectory codec r.className = path.dir
  dirs : ∀ name ∈ disk.dirs.keys, ∃ c ∈ classes, classDirectory codec c = name

theorem Describes.covers {L : Layout codec} {classes : Set String} {disk : Disk}
    (h : L.Describes classes disk) : L.Covers classes disk where
  file := by
    intro path bytes hb
    rw [h.file path bytes hb]
    exact Damaged.tail (h.torn path).incomplete
  absent := fun path hnone => (h.absent path hnone).1
  home := h.home
  dirs := h.dirs

/-- The layout once the tails are cut off. -/
def cut (L : Layout codec) : Layout codec := ⟨L.records, fun _ => []⟩

end Layout

/-! ### Rebuilding -/

/-- What a round of `rebuild_index` does to the files: one segment is written. -/
structure Rebuilt.Mends (before after : Rebuilt) (path : Path) (bytes : Bytes) : Prop where
  file : ∀ p, after.disk.file? p = if p = path then some bytes else before.disk.file? p
  ids : ∀ name, after.disk.ids name = before.disk.ids name
  dirs : ∀ name, name ∈ after.disk.dirs.keys ↔ name ∈ before.disk.dirs.keys

theorem Rebuilt.Mends.trans {acc acc' acc'' : Rebuilt} {path : Path} {bytes bytes' : Bytes}
    (h : acc.Mends acc' path bytes) (h' : acc'.Mends acc'' path bytes') :
    acc.Mends acc'' path bytes' := by
  refine ⟨fun p => ?_, fun name => by rw [h'.ids, h.ids], fun name => by rw [h'.dirs, h.dirs]⟩
  rw [h'.file, h.file]
  split <;> rfl

theorem Disk.write_mends {disk : Disk} {path : Path} (hf : disk.file? path ≠ none) (bytes : Bytes) :
    (∀ p, (disk.write path bytes).file? p = if p = path then some bytes else disk.file? p) ∧
      (∀ name, (disk.write path bytes).ids name = disk.ids name) ∧
        ∀ name, name ∈ (disk.write path bytes).dirs.keys ↔ name ∈ disk.dirs.keys := by
  refine ⟨disk.write_file? path bytes, Disk.write_ids_of_mem bytes ((Disk.mem_ids_iff path).mpr hf),
    fun name => ?_⟩
  rw [Disk.mem_write_dirs]
  constructor
  · rintro (rfl | h)
    · exact Disk.mem_dirs_of_file path hf
    · exact h
  · exact .inr

/-- A segment with a valid beginning is cut off behind it. -/
theorem Rebuilt.settle_mends {acc : Rebuilt} {path : Path} {whole tail : Bytes}
    (hf : acc.disk.file? path = some (whole ++ tail)) (index : Index) :
    acc.Mends (acc.settle path index whole.length) path whole := by
  have hsome : acc.disk.file? path ≠ none := by
    rw [hf]
    exact Option.some_ne_none _
  have hlen : acc.disk.len path = whole.length + tail.length := by
    rw [Disk.len, hf, Option.getD_some, List.length_append]
  by_cases hlt : whole.length < acc.disk.len path
  · have hdisk : (acc.settle path index whole.length).disk = acc.disk.write path whole := by
      rw [settle]
      dsimp only
      rw [if_pos hlt, hf, Option.getD_some, List.take_left]
    obtain ⟨hfile, hids, hdirs⟩ := Disk.write_mends hsome whole
    exact ⟨by rwa [hdisk], by rwa [hdisk], by rwa [hdisk]⟩
  · have htail : tail = [] := List.eq_nil_of_length_eq_zero (by omega)
    have hdisk : (acc.settle path index whole.length).disk = acc.disk := by
      rw [settle]
      exact if_neg hlt
    refine ⟨fun p => ?_, fun name => by rw [hdisk], fun name => by rw [hdisk]⟩
    rw [hdisk]
    split
    next hp => rw [hp, hf, htail, List.append_nil]
    · rfl

theorem Rebuilt.salvage_mends {acc : Rebuilt} {path : Path} {bytes : Bytes}
    (hf : acc.disk.file? path = some bytes) :
    acc.Mends (acc.salvage path) path (salvageFrom bytes 0 []) := by
  have hsome : acc.disk.file? path ≠ none := by
    rw [hf]
    exact Option.some_ne_none _
  obtain ⟨hfile, hids, hdirs⟩ := Disk.write_mends hsome (salvageFrom bytes 0 [])
  have hbytes : (acc.disk.file? path).getD [] = bytes := by rw [hf, Option.getD_some]
  rw [← hbytes] at hfile hids hdirs ⊢
  exact ⟨hfile, hids, hdirs⟩

/-- All records of the list are of one class. -/
def OneClass (rs : List (Record codec)) : Prop := ∃ c, ∀ r ∈ rs, r.className = c

theorem Record.entries_class {rs : List (Record codec)} {c : String} (hc : ∀ r ∈ rs, r.className = c)
    {path : Path} {offset : ℕ} {e : LogEntry String RecordLocation}
    (he : e ∈ Record.entries path offset rs) {location : RecordLocation}
    (hv : e.value = some location) : location.className = c := by
  induction rs generalizing offset with
  | nil => cases he
  | cons r rs ih =>
    rcases List.mem_cons.mp he with rfl | he
    · obtain ⟨v, -, rfl⟩ := Option.map_eq_some_iff.mp hv
      exact hc r List.mem_cons_self
    · exact ih (fun r' hr' => hc r' (List.mem_cons_of_mem r hr')) he

/-- What the first scan of a damaged segment comes to. -/
theorem scanSegment_damaged (path : Path) {before after : List (Record codec)} {junk : Bytes}
    (hdead : Dead junk (after.flatMap Record.bytes)) {index i : Index}
    (hi : Replay.replay RecordLocation.className index (Record.entries path 0 before) = some i) :
    (∃ reason, scanSegment path (before.flatMap Record.bytes ++ (junk ++ after.flatMap Record.bytes))
        index = (.error (.corrupt reason), i)) ∨
      after = [] ∧ scanSegment path (before.flatMap Record.bytes ++
        (junk ++ after.flatMap Record.bytes)) index =
          (.ok (before.flatMap Record.bytes).length, i) ∨
      junk = [] := by
  rcases List.eq_nil_or_concat junk with hnil | ⟨front, b, hconcat⟩
  · exact .inr (.inr hnil)
  have hpos : 0 < junk.length := by
    rw [hconcat, List.length_concat]
    omega
  have hscan := scanFrom_records path [] (junk ++ after.flatMap Record.bytes) before index
  rw [List.length_nil, List.nil_append, Nat.zero_add, hi] at hscan
  dsimp only at hscan
  have hmore : (before.flatMap Record.bytes).length <
      (before.flatMap Record.bytes ++ (junk ++ after.flatMap Record.bytes)).length := by
    rw [List.length_append, List.length_append]
    omega
  have hnone : recordLen ((before.flatMap Record.bytes ++ (junk ++ after.flatMap Record.bytes)).drop
      (before.flatMap Record.bytes).length) = none := by
    rw [List.drop_left, ← List.drop_zero (l := junk ++ after.flatMap Record.bytes)]
    exact hdead 0 hpos
  rw [scanSegment, hscan]
  rcases @scanFrom_dead path _ _ i hmore hnone with htail | hcorrupt
  · have hfind := @findRecord_junk codec [] junk after hdead 1 (Nat.zero_le 1)
      (by rw [List.length_nil]; omega)
    rw [List.nil_append] at hfind
    rw [htail, tailOrCorrupt, List.drop_left, hfind]
    by_cases hafter : after = []
    · rw [if_pos hafter]
      exact .inr (.inl ⟨hafter, rfl⟩)
    · rw [if_neg hafter]
      exact .inl ⟨_, rfl⟩
  · exact .inl hcorrupt

/-- A scan of whole records. -/
theorem scanSegment_whole (path : Path) {rs : List (Record codec)} {index j : Index}
    (hj : Replay.replay RecordLocation.className index (Record.entries path 0 rs) = some j) :
    scanSegment path (rs.flatMap Record.bytes) index = (.ok (rs.flatMap Record.bytes).length, j) := by
  have hscan := scanFrom_records path [] [] rs index
  rw [List.length_nil, List.nil_append, List.append_nil, Nat.zero_add, hj] at hscan
  rw [scanSegment, hscan, scanFrom, dif_neg (lt_irrefl _)]

/-- A scan that meets a conflict in the records at the beginning. -/
theorem scanSegment_conflict (path : Path) {rs : List (Record codec)} (tail : Bytes) {index : Index}
    (hnone : Replay.replay RecordLocation.className index (Record.entries path 0 rs) = none) :
    ∃ e j, scanSegment path (rs.flatMap Record.bytes ++ tail) index = (.error (.fatal e), j) := by
  have hscan := scanFrom_records path [] tail rs index
  rw [List.length_nil, List.nil_append, hnone] at hscan
  exact hscan

/-- A round of `rebuild_index` on a segment of whole records and damage. -/
theorem Rebuilt.segment_replay (root : String) {acc : Rebuilt} {path : Path} {bytes : Bytes}
    {rs : List (Record codec)} (hf : acc.disk.file? path = some bytes) (hd : Damaged rs bytes)
    (hclass : OneClass rs) {j : Index}
    (hj : Replay.replay RecordLocation.className acc.index (Record.entries path 0 rs) = some j) :
    ∃ acc', acc.segment root path = (.ok (), acc') ∧
      (∀ k, Dict.get? acc'.index k = Dict.get? j k) ∧
        acc.Mends acc' path (rs.flatMap Record.bytes) := by
  obtain ⟨c, hc⟩ := hclass
  obtain ⟨before, after, junk, rfl, rfl, hdead⟩ := hd.parts
  have hentries := Record.entries_append path 0 before after
  rw [Nat.zero_add] at hentries
  obtain ⟨i, hi, -⟩ := Option.bind_eq_some_iff.mp
    ((Replay.replay_append _ _ _ _).symm.trans (hentries ▸ hj))
  have hgetD : (acc.disk.file? path).getD [] =
      before.flatMap Record.bytes ++ (junk ++ after.flatMap Record.bytes) := by
    rw [hf, Option.getD_some]
  rcases scanSegment_damaged path hdead hi with ⟨reason, hcorrupt⟩ | ⟨hafter, hok⟩ | hjunk
  · -- the salvaged segment is scanned over what the first scan has read
    have hagain : ∃ j', Replay.replay RecordLocation.className i
        (Record.entries path 0 (before ++ after)) = some j' ∧ ∀ k, Dict.get? j' k = Dict.get? j k := by
      rw [hentries] at hj ⊢
      refine Replay.replay_again c (fun e he v hv => ?_) hi hj
      rw [← hentries] at he
      exact Record.entries_class hc he hv
    obtain ⟨j', hj', hget⟩ := hagain
    have hsalvage := @salvage_mends { acc with index := i } path _ hf
    rw [salvageFrom_damaged hd] at hsalvage
    have hfile : (({ acc with index := i } : Rebuilt).salvage path).disk.file? path =
        some ((before ++ after).flatMap Record.bytes ++ []) := by
      rw [hsalvage.file, if_pos rfl, List.append_nil]
    have hindex : (({ acc with index := i } : Rebuilt).salvage path).index = i := rfl
    refine ⟨(({ acc with index := i } : Rebuilt).salvage path).settle path j'
      ((before ++ after).flatMap Record.bytes).length, ?_, hget, ?_⟩
    · rw [segment, hgetD, hcorrupt]
      dsimp only
      rw [hfile, Option.getD_some, List.append_nil, hindex, scanSegment_whole path hj']
    · exact Mends.trans ⟨hsalvage.file, hsalvage.ids, hsalvage.dirs⟩ (settle_mends hfile j')
  · subst hafter
    rw [List.append_nil] at hj ⊢
    have hij : i = j := Option.some.inj (hi.symm.trans hj)
    refine ⟨acc.settle path i (before.flatMap Record.bytes).length, ?_, fun k => by rw [← hij]; rfl,
      settle_mends hf i⟩
    rw [segment, hgetD, hok]
  · subst hjunk
    rw [List.nil_append, ← List.flatMap_append] at hf hgetD
    rw [← List.append_nil ((before ++ after).flatMap Record.bytes)] at hf
    refine ⟨acc.settle path j ((before ++ after).flatMap Record.bytes).length, ?_, fun _ => rfl,
      settle_mends hf j⟩
    rw [segment, hgetD, scanSegment_whole path hj]

/-- A round that meets a conflict. -/
theorem Rebuilt.segment_conflict (root : String) {acc : Rebuilt} {path : Path} {bytes : Bytes}
    {rs : List (Record codec)} (hf : acc.disk.file? path = some bytes) (hd : Damaged rs bytes)
    (hclass : OneClass rs)
    (hnone : Replay.replay RecordLocation.className acc.index (Record.entries path 0 rs) = none) :
    ∃ e acc', acc.segment root path = (.error e, acc') := by
  obtain ⟨c, hc⟩ := hclass
  obtain ⟨before, after, junk, rfl, rfl, hdead⟩ := hd.parts
  have hentries := Record.entries_append path 0 before after
  rw [Nat.zero_add] at hentries
  have hgetD : (acc.disk.file? path).getD [] =
      before.flatMap Record.bytes ++ (junk ++ after.flatMap Record.bytes) := by
    rw [hf, Option.getD_some]
  cases hi : Replay.replay RecordLocation.className acc.index (Record.entries path 0 before) with
  | none =>
    obtain ⟨e, j, hfatal⟩ := scanSegment_conflict path (junk ++ after.flatMap Record.bytes) hi
    exact ⟨e, _, by rw [segment, hgetD, hfatal]⟩
  | some i =>
    rcases scanSegment_damaged path hdead hi with ⟨reason, hcorrupt⟩ | ⟨hafter, -⟩ | hjunk
    · have hagain : Replay.replay RecordLocation.className i
          (Record.entries path 0 (before ++ after)) = none := by
        rw [hentries] at hnone ⊢
        refine Replay.replay_again_conflict c (fun e he v hv => ?_) hi hnone
        rw [← hentries] at he
        exact Record.entries_class hc he hv
      have hsalvage := @salvage_mends { acc with index := i } path _ hf
      rw [salvageFrom_damaged hd] at hsalvage
      have hfile : (({ acc with index := i } : Rebuilt).salvage path).disk.file? path =
          some ((before ++ after).flatMap Record.bytes) := by
        rw [hsalvage.file, if_pos rfl]
      have hindex : (({ acc with index := i } : Rebuilt).salvage path).index = i := rfl
      obtain ⟨e, j, hfatal⟩ := scanSegment_conflict path [] hagain
      rw [List.append_nil] at hfatal
      refine ⟨e, { ({ acc with index := i } : Rebuilt).salvage path with index := j }, ?_⟩
      rw [segment, hgetD, hcorrupt]
      dsimp only
      rw [hfile, Option.getD_some, hindex, hfatal]
    · subst hafter
      rw [List.append_nil, hi] at hnone
      cases hnone
    · subst hjunk
      rw [List.nil_append, ← List.flatMap_append, ← List.append_nil (List.flatMap _ _)] at hgetD
      obtain ⟨e, j, hfatal⟩ := scanSegment_conflict path [] hnone
      exact ⟨e, _, by rw [segment, hgetD, hfatal]⟩

/-- What `rebuild_index` leaves of the disk. -/
structure Cut (L : Layout codec) (paths : List Path) (before after : Disk) : Prop where
  file : ∀ path, after.file? path = if path ∈ paths then some (L.bytes path) else before.file? path
  ids : ∀ name, after.ids name = before.ids name
  dirs : ∀ name, name ∈ after.dirs.keys ↔ name ∈ before.dirs.keys

/-- The file of a segment is the records of the layout and damage. -/
def Layout.DamagedAt (L : Layout codec) (disk : Disk) (path : Path) : Prop :=
  OneClass (L.records path) ∧ ∃ bytes, disk.file? path = some bytes ∧ Damaged (L.records path) bytes

theorem Layout.DamagedAt.mended {L : Layout codec} {acc acc' : Rebuilt} {path p : Path}
    (h : L.DamagedAt acc.disk p) (hm : acc.Mends acc' path (L.bytes path)) :
    L.DamagedAt acc'.disk p := by
  refine ⟨h.1, ?_⟩
  rw [hm.file]
  split
  next hp => exact ⟨L.bytes path, rfl, hp ▸ Damaged.whole (L.records path)⟩
  · exact h.2

/-- The whole loop, where each round replays the log of its segment and leaves `left` of it. -/
theorem Rebuilt.segments_loop (root : String) {log : Path → List (LogEntry String RecordLocation)}
    {given left : Path → Bytes} {acc : Rebuilt} {paths : List Path} (hnodup : paths.Nodup)
    (hround : ∀ path ∈ paths, ∀ (acc : Rebuilt) (j : Index), acc.disk.file? path = some (given path) →
      Replay.replay RecordLocation.className acc.index (log path) = some j →
        ∃ acc', acc.segment root path = (.ok (), acc') ∧
          (∀ k, Dict.get? acc'.index k = Dict.get? j k) ∧ acc.Mends acc' path (left path))
    (hf : ∀ path ∈ paths, acc.disk.file? path = some (given path)) {j : Index}
    (hj : Replay.replay RecordLocation.className acc.index (paths.flatMap log) = some j) :
    ∃ acc', acc.segments root paths = (.ok (), acc') ∧
      (∀ k, Dict.get? acc'.index k = Dict.get? j k) ∧
      (∀ p, acc'.disk.file? p = if p ∈ paths then some (left p) else acc.disk.file? p) ∧
      (∀ name, acc'.disk.ids name = acc.disk.ids name) ∧
      ∀ name, name ∈ acc'.disk.dirs.keys ↔ name ∈ acc.disk.dirs.keys := by
  induction paths generalizing acc j with
  | nil =>
    cases Option.some.inj hj
    refine ⟨acc, rfl, fun _ => rfl, fun path => ?_, fun _ => rfl, fun _ => Iff.rfl⟩
    rw [if_neg List.not_mem_nil]
  | cons path paths ih =>
    rw [List.nodup_cons] at hnodup
    rw [List.flatMap_cons, Replay.replay_append] at hj
    obtain ⟨i, hi, hj⟩ := Option.bind_eq_some_iff.mp hj
    obtain ⟨acc₁, hstep, hindex, hmends⟩ :=
      hround path List.mem_cons_self acc i (hf path List.mem_cons_self) hi
    obtain ⟨j₁, hj₁, hget₁⟩ := Replay.replay_congr hindex hj
    have hrest : ∀ p ∈ paths, acc₁.disk.file? p = some (given p) := by
      intro p hp
      have hne : p ≠ path := fun h => hnodup.1 (h ▸ hp)
      rw [hmends.file, if_neg hne]
      exact hf p (List.mem_cons_of_mem path hp)
    obtain ⟨acc', hacc, hget, hfile, hids, hdirs⟩ := @ih acc₁ hnodup.2
      (fun p hp => hround p (List.mem_cons_of_mem path hp)) hrest j₁ hj₁
    refine ⟨acc', ?_, fun k => (hget k).trans (hget₁ k), fun p => ?_, fun name => ?_, fun name => ?_⟩
    · rw [segments, hstep]
      exact hacc
    · rw [hfile, hmends.file]
      by_cases hp : p = path
      · rw [if_pos hp, if_pos (List.mem_cons.mpr (.inl hp)), hp, if_neg hnodup.1]
      · rw [if_neg hp]
        exact if_congr (by simp [hp]) rfl rfl
    · rw [hids, hmends.ids]
    · rw [hdirs, hmends.dirs]

/-- The replay of the logs, one segment after another. -/
theorem Rebuilt.segments_replay (root : String) (L : Layout codec) {acc : Rebuilt} {paths : List Path}
    (hnodup : paths.Nodup) (hf : ∀ path ∈ paths, L.DamagedAt acc.disk path) {j : Index}
    (hj : Replay.replay RecordLocation.className acc.index (paths.flatMap L.segmentLog) = some j) :
    ∃ acc', acc.segments root paths = (.ok (), acc') ∧
      (∀ k, Dict.get? acc'.index k = Dict.get? j k) ∧ Cut L paths acc.disk acc'.disk := by
  have hgiven : ∀ path ∈ paths, acc.disk.file? path = some ((acc.disk.file? path).getD []) ∧
      Damaged (L.records path) ((acc.disk.file? path).getD []) := by
    intro path hp
    obtain ⟨-, bytes, hfile, hd⟩ := hf path hp
    rw [hfile, Option.getD_some]
    exact ⟨rfl, hd⟩
  obtain ⟨acc', hacc, hget, hfile, hids, hdirs⟩ := @segments_loop root L.segmentLog
    (fun path => (acc.disk.file? path).getD []) L.bytes acc paths hnodup
    (fun path hp _ _ hfile hi => segment_replay root hfile (hgiven path hp).2 (hf path hp).1 hi)
    (fun path hp => (hgiven path hp).1) j hj
  exact ⟨acc', hacc, hget, hfile, hids, hdirs⟩

/-- Where the replay meets a conflict the loop fails. -/
theorem Rebuilt.segments_conflict (root : String) (L : Layout codec) {acc : Rebuilt}
    {paths : List Path} (hf : ∀ path ∈ paths, L.DamagedAt acc.disk path)
    (hnone : Replay.replay RecordLocation.className acc.index (paths.flatMap L.segmentLog) = none) :
    ∃ e acc', acc.segments root paths = (.error e, acc') := by
  induction paths generalizing acc with
  | nil => cases hnone
  | cons path paths ih =>
    obtain ⟨hclass, bytes, hfile, hd⟩ := hf path List.mem_cons_self
    rw [List.flatMap_cons, Replay.replay_append] at hnone
    cases hi : Replay.replay RecordLocation.className acc.index (L.segmentLog path) with
    | none =>
      obtain ⟨e, acc', he⟩ := segment_conflict root hfile hd hclass hi
      exact ⟨e, acc', by rw [segments, he]⟩
    | some i =>
      rw [hi, Option.bind_some] at hnone
      obtain ⟨acc₁, hstep, hindex, hmends⟩ := segment_replay root hfile hd hclass hi
      have hrest : Replay.replay RecordLocation.className acc₁.index (paths.flatMap L.segmentLog) =
          none := by
        by_contra hsome
        obtain ⟨j, hj⟩ := Option.ne_none_iff_exists'.mp hsome
        obtain ⟨j', hj', -⟩ := Replay.replay_congr (fun k => (hindex k).symm) hj
        rw [hnone] at hj'
        cases hj'
      obtain ⟨e, acc', he⟩ := @ih acc₁
        (fun p hp => (hf p (List.mem_cons_of_mem path hp)).mended hmends) hrest
      refine ⟨e, acc', ?_⟩
      rw [segments, hstep]
      exact he

theorem Disk.nodup_paths (disk : Disk) : disk.paths.Nodup := by
  rw [Disk.paths, List.nodup_flatMap]
  constructor
  · intro name _
    have hids : (disk.ids name).Nodup := (disk.dir name).sorted.imp fun hlt => ne_of_lt hlt
    exact hids.map fun id id' h => congrArg Path.id h
  · have hkeys : disk.dirs.keys.Nodup := disk.dirs.sorted.imp fun hlt => ne_of_lt hlt
    refine hkeys.imp fun {name name'} hne path hpath hpath' => ?_
    obtain ⟨id, -, rfl⟩ := List.mem_map.mp hpath
    obtain ⟨id', -, h⟩ := List.mem_map.mp hpath'
    exact hne (congrArg Path.dir h).symm

theorem Disk.mem_paths_iff {disk : Disk} {path : Path} : path ∈ disk.paths ↔ disk.file? path ≠ none := by
  rw [← Disk.mem_ids_iff, Disk.paths, List.mem_flatMap]
  constructor
  · rintro ⟨name, -, hmem⟩
    obtain ⟨id, hid, rfl⟩ := List.mem_map.mp hmem
    exact hid
  · intro hid
    have hdir := Disk.mem_dirs_of_file path ((Disk.mem_ids_iff path).mp hid)
    exact ⟨path.dir, hdir, List.mem_map.mpr ⟨path.id, hid, rfl⟩⟩

namespace Layout

variable {L : Layout codec} {classes : Set String} {disk : Disk}

theorem mem_log {dir : String} {e : LogEntry String RecordLocation} (h : e ∈ L.log disk dir) :
    ∃ id ∈ disk.ids dir, e ∈ L.segmentLog ⟨dir, id⟩ := List.mem_flatMap.mp h

end Layout

/-- Each entry of a log is that of one of its records. -/
theorem Record.exists_of_mem_entries {path : Path} {offset : ℕ} {rs : List (Record codec)}
    {e : LogEntry String RecordLocation} (h : e ∈ Record.entries path offset rs) :
    ∃ pre r post, rs = pre ++ r :: post ∧ e = r.entry path (offset + (pre.flatMap bytes).length) := by
  induction rs generalizing offset with
  | nil => cases h
  | cons r rs ih =>
    rcases List.mem_cons.mp h with rfl | h
    · exact ⟨[], r, rs, rfl, rfl⟩
    · obtain ⟨pre, r', post, rfl, rfl⟩ := ih h
      refine ⟨r :: pre, r', post, rfl, ?_⟩
      rw [List.flatMap_cons, List.length_append, Nat.add_assoc]

namespace Layout

variable {L : Layout codec} {classes : Set String} {disk : Disk}

theorem Covers.entry_home (h : L.Covers classes disk) {dir : String}
    {e : LogEntry String RecordLocation} (he : e ∈ L.log disk dir) {location : RecordLocation}
    (hv : e.value = some location) :
    location.className ∈ classes ∧ classDirectory codec location.className = dir := by
  obtain ⟨id, -, he⟩ := mem_log he
  obtain ⟨pre, r, post, hrs, rfl⟩ := Record.exists_of_mem_entries he
  obtain ⟨v, -, rfl⟩ := Option.map_eq_some_iff.mp hv
  refine h.home ⟨dir, id⟩ r ?_
  rw [hrs]
  exact List.mem_append_right pre List.mem_cons_self

/-- `location` names the record `r`. -/
structure At (L : Layout codec) (location : RecordLocation) (r : Record codec) : Prop where
  records : ∃ pre post, L.records location.path = pre ++ r :: post ∧
    location.offset = (pre.flatMap Record.bytes).length
  totalLen : location.totalLen = r.bytes.length
  className : location.className = r.className

/-- The file holds the bytes of a record at its location. -/
theorem Describes.slice_at (h : L.Describes classes disk) {location : RecordLocation}
    {r : Record codec} (hat : L.At location r) :
    ∃ bytes, disk.file? location.path = some bytes ∧
      location.offset + location.totalLen ≤ bytes.length ∧
      slice bytes location.offset location.totalLen = r.bytes := by
  obtain ⟨⟨pre, post, hrs, hoffset⟩, htotal, -⟩ := hat
  cases hb : disk.file? location.path with
  | none =>
    rw [(h.absent _ hb).1] at hrs
    exact (List.append_ne_nil_of_right_ne_nil pre (List.cons_ne_nil r post) hrs.symm).elim
  | some bytes =>
    have hbytes : bytes = pre.flatMap Record.bytes ++ r.bytes ++
        (post.flatMap Record.bytes ++ L.tail location.path) := by
      rw [h.file _ _ hb, Layout.bytes, hrs]
      simp only [List.flatMap_append, List.flatMap_cons, List.append_assoc]
    refine ⟨bytes, rfl, ?_, ?_⟩
    · rw [hbytes, hoffset, htotal, List.length_append, List.length_append]
      omega
    · exact slice_eq_mid _ _ _ hbytes hoffset.symm htotal.symm

/-- The index `live` of a directory with this layout: a key is live where the
log of its class ends with a value of it. -/
structure Live (L : Layout codec) (classes : Set String) (disk : Disk)
    (live : String → Option RecordLocation) : Prop where
  opens : ∀ c ∈ classes, ∀ k, Replay.first (L.log disk (classDirectory codec c)) k ≠ some none
  live_last : ∀ k v, live k = some v → v.className ∈ classes ∧
    Replay.last (L.log disk (classDirectory codec v.className)) k = some (some v)
  last_live : ∀ c ∈ classes, ∀ k v,
    Replay.last (L.log disk (classDirectory codec c)) k = some (some v) → live k = some v

/-- No class whose directory sorts behind that of a live key has a record of the key. -/
def Foremost (L : Layout codec) (classes : Set String) (disk : Disk)
    (live : String → Option RecordLocation) : Prop :=
  ∀ k v, live k = some v → ∀ c ∈ classes,
    classDirectory codec v.className < classDirectory codec c →
      ∀ e ∈ L.log disk (classDirectory codec c), e.key ≠ k

theorem Covers.exists_classes (h : L.Covers classes disk) :
    ∃ cs : List String, cs.map (classDirectory codec) = disk.dirs.keys ∧ ∀ c ∈ cs, c ∈ classes := by
  have hall : ∀ names : List String, (∀ name ∈ names, ∃ c ∈ classes, classDirectory codec c = name) →
      ∃ cs : List String, cs.map (classDirectory codec) = names ∧ ∀ c ∈ cs, c ∈ classes := by
    intro names
    induction names with
    | nil => exact fun _ => ⟨[], rfl, fun _ h => (List.not_mem_nil h).elim⟩
    | cons name names ih =>
      intro hn
      obtain ⟨c, hc, hname⟩ := hn name List.mem_cons_self
      obtain ⟨cs, hcs, hmem⟩ := ih fun n h => hn n (List.mem_cons_of_mem name h)
      exact ⟨c :: cs, by rw [List.map_cons, hname, hcs], List.forall_mem_cons.mpr ⟨hc, hmem⟩⟩
  exact hall _ h.dirs

theorem mem_dirs_of_log {dir : String} {e : LogEntry String RecordLocation}
    (he : e ∈ L.log disk dir) : dir ∈ disk.dirs.keys := by
  obtain ⟨id, hid, -⟩ := mem_log he
  exact Disk.mem_dirs_of_file ⟨dir, id⟩ ((Disk.mem_ids_iff ⟨dir, id⟩).mp hid)

variable {live : String → Option RecordLocation}

/-- The directories as classes: their logs are those of a keyed log. -/
theorem Covers.logs (h : L.Covers classes disk) (hl : L.Live classes disk live)
    (hdir : Set.InjOn (classDirectory codec) classes) {cs : List String}
    (hcs : cs.map (classDirectory codec) = disk.dirs.keys) (hmem : ∀ c ∈ cs, c ∈ classes) :
    Replay.Logs RecordLocation.className cs (fun c => L.log disk (classDirectory codec c)) live where
  nodup := by
    have hn : disk.dirs.keys.Nodup := disk.dirs.sorted.imp fun hlt => ne_of_lt hlt
    rw [← hcs] at hn
    exact List.Nodup.of_map _ hn
  home := by
    intro c hc e he v hv
    obtain ⟨hv', hd⟩ := h.entry_home he hv
    exact hdir hv' (hmem c hc) hd
  opens := fun c hc => hl.opens c (hmem c hc)
  live_last := by
    intro k v hkv
    obtain ⟨hclass, hlast⟩ := hl.live_last k v hkv
    refine ⟨?_, hlast⟩
    obtain ⟨e, he, -⟩ := Replay.exists_of_last hlast
    have hd := mem_dirs_of_log he
    rw [← hcs] at hd
    obtain ⟨c, hc, heq⟩ := List.mem_map.mp hd
    rwa [← hdir (hmem c hc) hclass heq]
  last_live := fun c hc => hl.last_live c (hmem c hc)

/-- In the order of the directories, `Clear` is `Foremost`. -/
theorem clear_iff_foremost (hl : L.Live classes disk live)
    (hdir : Set.InjOn (classDirectory codec) classes) {cs : List String}
    (hcs : cs.map (classDirectory codec) = disk.dirs.keys) (hmem : ∀ c ∈ cs, c ∈ classes) :
    Replay.Clear RecordLocation.className cs (fun c => L.log disk (classDirectory codec c)) live ↔
      L.Foremost classes disk live := by
  have hsorted : cs.Pairwise fun c c' => classDirectory codec c < classDirectory codec c' := by
    have hs : disk.dirs.keys.Pairwise (· < ·) := disk.dirs.sorted
    rw [← hcs, List.pairwise_map] at hs
    exact hs
  have hin {c : String} (hc : c ∈ classes) {e : LogEntry String RecordLocation}
      (he : e ∈ L.log disk (classDirectory codec c)) : c ∈ cs := by
    have hd := mem_dirs_of_log he
    rw [← hcs] at hd
    obtain ⟨c', hc', heq⟩ := List.mem_map.mp hd
    rwa [← hdir (hmem c' hc') hc heq]
  constructor
  · intro hclear k v hkv c hc hlt e he hek
    obtain ⟨hv, hlast⟩ := hl.live_last k v hkv
    obtain ⟨e', he', -⟩ := Replay.exists_of_last hlast
    -- the class whose directory sorts first stands first in the list
    obtain ⟨i, hi, hvi⟩ := List.mem_iff_getElem.mp (hin hv he')
    obtain ⟨j, hj, hcj⟩ := List.mem_iff_getElem.mp (hin hc he)
    have hij : i < j := by
      rcases lt_trichotomy i j with h | h | h
      · exact h
      · subst h
        rw [← hvi, ← hcj] at hlt
        exact (lt_irrefl _ hlt).elim
      · have hgt := List.pairwise_iff_getElem.mp hsorted j i hj hi h
        rw [hvi, hcj] at hgt
        exact (lt_asymm hlt hgt).elim
    have hpair := List.pairwise_iff_getElem.mp hclear i j hi hj hij k v hkv hvi.symm
    rw [hcj] at hpair
    exact hpair e he hek
  · intro hfore
    refine hsorted.imp_of_mem fun {c c'} _ hc' hlt k v hkv hclass => ?_
    exact hfore k v hkv c' (hmem c' hc') (hclass ▸ hlt)

theorem paths_replay {cs : List String}
    (hcs : cs.map (classDirectory codec) = disk.dirs.keys) :
    disk.paths.flatMap L.segmentLog =
      cs.flatMap fun c => L.log disk (classDirectory codec c) := by
  rw [Disk.paths, ← hcs, List.flatMap_map, List.flatMap_assoc]
  refine List.flatMap_congr fun c _ => ?_
  rw [Disk.segmentFiles, List.flatMap_map]
  rfl

theorem Covers.damagedAt (h : L.Covers classes disk)
    (hdir : Set.InjOn (classDirectory codec) classes) {path : Path} (hp : path ∈ disk.paths) :
    L.DamagedAt disk path := by
  obtain ⟨bytes, hb⟩ := Option.ne_none_iff_exists'.mp (Disk.mem_paths_iff.mp hp)
  refine ⟨?_, bytes, hb, h.file path bytes hb⟩
  by_cases hnone : ∃ r, r ∈ L.records path
  · obtain ⟨r, hr⟩ := hnone
    obtain ⟨hclass, hrd⟩ := h.home path r hr
    refine ⟨r.className, fun r' hr' => ?_⟩
    obtain ⟨hclass', hrd'⟩ := h.home path r' hr'
    exact hdir hclass' hclass (hrd'.trans hrd.symm)
  · exact ⟨"", fun r hr => (hnone ⟨r, hr⟩).elim⟩

/-- The index is rebuilt as the replay of the logs. -/
theorem Covers.rebuild_replay (h : L.Covers classes disk)
    (hdir : Set.InjOn (classDirectory codec) classes) (root : String) {j : Index}
    (hj : Replay.replay RecordLocation.className Dict.empty (disk.paths.flatMap L.segmentLog) = some j) :
    ∃ acc, rebuildIndex root disk = (.ok (), acc) ∧
      (∀ k, Dict.get? acc.index k = Dict.get? j k) ∧ Cut L disk.paths disk acc.disk :=
  @Rebuilt.segments_replay codec root L ⟨Dict.empty, disk, 0, 0⟩ disk.paths
    disk.nodup_paths (fun _ hp => h.damagedAt hdir hp) j hj

/-- Where the logs conflict reopening fails. -/
theorem Covers.replay_of_rebuild (h : L.Covers classes disk)
    (hdir : Set.InjOn (classDirectory codec) classes) {root : String} {acc : Rebuilt}
    (hacc : rebuildIndex root disk = (.ok (), acc)) :
    ∃ j, Replay.replay RecordLocation.className Dict.empty (disk.paths.flatMap L.segmentLog) =
      some j := by
  refine Option.ne_none_iff_exists'.mp fun hnone => ?_
  obtain ⟨e, acc', he⟩ := @Rebuilt.segments_conflict codec root L ⟨Dict.empty, disk, 0, 0⟩ disk.paths
    (fun _ hp => h.damagedAt hdir hp) hnone
  rw [rebuildIndex, he] at hacc
  cases congrArg Prod.fst hacc

/-- The index is rebuilt as it was where each key is live in its foremost class. -/
theorem Covers.rebuild (h : L.Covers classes disk) (hl : L.Live classes disk live)
    (hdir : Set.InjOn (classDirectory codec) classes) (hfore : L.Foremost classes disk live)
    (root : String) :
    ∃ acc, rebuildIndex root disk = (.ok (), acc) ∧ (∀ k, Dict.get? acc.index k = live k) ∧
      Cut L disk.paths disk acc.disk := by
  obtain ⟨cs, hcs, hmem⟩ := h.exists_classes
  have hclear := (clear_iff_foremost hl hdir hcs hmem).mpr hfore
  obtain ⟨j, hj, hlive⟩ := (h.logs hl hdir hcs hmem).rebuild hclear
  rw [← paths_replay hcs] at hj
  obtain ⟨acc, hacc, hget, hcut⟩ := h.rebuild_replay hdir root hj
  exact ⟨acc, hacc, fun k => (hget k).trans (hlive k), hcut⟩

/-- Elsewhere reopening fails. -/
theorem Covers.foremost_of_rebuild (h : L.Covers classes disk) (hl : L.Live classes disk live)
    (hdir : Set.InjOn (classDirectory codec) classes) {root : String} {acc : Rebuilt}
    (hacc : rebuildIndex root disk = (.ok (), acc)) : L.Foremost classes disk live := by
  obtain ⟨cs, hcs, hmem⟩ := h.exists_classes
  obtain ⟨j, hj⟩ := h.replay_of_rebuild hdir hacc
  rw [paths_replay hcs] at hj
  exact (clear_iff_foremost hl hdir hcs hmem).mp ((h.logs hl hdir hcs hmem).clear_of_replay hj)

section Reopened

variable {after : Disk}

theorem Covers.cut (h : L.Covers classes disk) (hcut : Cut L disk.paths disk after) :
    L.cut.Describes classes after where
  file := by
    intro path bytes hb
    rw [hcut.file] at hb
    split at hb
    · cases Option.some.inj hb
      exact (List.append_nil _).symm
    next hp =>
      have hsome : disk.file? path ≠ none := by
        rw [hb]
        exact Option.some_ne_none _
      exact (hp (Disk.mem_paths_iff.mpr hsome)).elim
  absent := by
    intro path hnone
    rw [hcut.file] at hnone
    split at hnone
    · cases hnone
    · exact ⟨h.absent path hnone, rfl⟩
  torn := fun _ => .nil
  home := h.home
  dirs := fun name hn => h.dirs name ((hcut.dirs name).mp hn)

theorem cut_log (hcut : Cut L disk.paths disk after) (dir : String) :
    L.cut.log after dir = L.log disk dir := by
  rw [log, log, hcut.ids]
  rfl

theorem Live.cut (hl : L.Live classes disk live) (hcut : Cut L disk.paths disk after) :
    L.cut.Live classes after live where
  opens := fun c hc k => by
    rw [cut_log hcut]
    exact hl.opens c hc k
  live_last := fun k v hkv => by
    rw [cut_log hcut]
    exact hl.live_last k v hkv
  last_live := fun c hc k v hlast => by
    rw [cut_log hcut] at hlast
    exact hl.last_live c hc k v hlast

end Reopened

end Layout

end Jaiba.Memory.Cold
