import Jaiba.Memory.Cold.Torn

/-!
# Damage to one record

The bytes of one record are changed arbitrarily. Where they no longer read as a
record anywhere, salvaging drops them and the others stay; where they are still
framed as the same record, only its payload is in question. Neither header nor
key is under the checksum, so that other damage may pass for another record.
-/

namespace Jaiba.Memory.Cold
open Jaiba.Lib

variable {codec : Codec} {L : Layout codec} {classes : Set String} {disk : Disk} {path : Path}

/-- The bytes from `offset` on are replaced by `d`. -/
def Disk.overwrite (disk : Disk) (path : Path) (offset : ℕ) (d : Bytes) : Disk :=
  let bytes := (disk.file? path).getD []
  disk.write path (bytes.take offset ++ (d ++ bytes.drop (offset + d.length)))

/-- The layout with other records in one segment. -/
def Layout.replace (L : Layout codec) (path : Path) (rs : List (Record codec)) : Layout codec where
  records := Function.update L.records path rs
  tail := fun _ => []

/-- The damaged directory is opened. A key whose latest record stands elsewhere
reads as before, and no key reads a value that was not put for it. -/
def Contains (codec : Codec) (root : String) (L : Layout codec) (disk : Disk) (path : Path)
    (offset : ℕ) (d : Bytes) : Prop :=
  ∀ options, ∃ s after, openWithLimit root options (disk.overwrite path offset d) = (.ok s, after) ∧
    (∀ key location, L.ending disk key = some location →
      ¬ (location.path = path ∧ location.offset = offset) →
      (s.get codec after key).1 = .ok (stored (L.ops disk) key)) ∧
    ∀ key entry, (s.get codec after key).1 = .ok (some entry) →
      .put key entry.className entry.value ∈ L.ops disk

/-! ### Calls of a log -/

def Op.key : Op → String
  | .put key _ _ => key
  | .remove key => key

theorem Op.apply_of_ne {op : Op} {k : String} (h : k ≠ op.key) (map : String → Option ColdEntry) :
    op.apply map k = map k := by
  cases op <;> exact Function.update_of_ne h ..

theorem Op.apply_congr (op : Op) {k : String} {map map' : String → Option ColdEntry}
    (h : k ≠ op.key → map k = map' k) : op.apply map k = op.apply map' k := by
  by_cases hk : k = op.key
  · subst hk
    cases op <;> simp [apply, Op.key]
  · rw [apply_of_ne hk, apply_of_ne hk, h hk]

theorem foldl_ops_congr (ops : List Op) {k : String} {map map' : String → Option ColdEntry}
    (h : (∀ op ∈ ops, op.key ≠ k) → map k = map' k) :
    ops.foldl Op.apply map k = ops.foldl Op.apply map' k := by
  induction ops generalizing map map' with
  | nil => exact h fun _ hop => (List.not_mem_nil hop).elim
  | cons op ops ih =>
    rw [List.foldl_cons, List.foldl_cons]
    refine ih fun hno => op.apply_congr fun hk => h fun op' hop' => ?_
    rcases List.mem_cons.mp hop' with rfl | hop'
    · exact hk.symm
    · exact hno op' hop'

/-- Without a call that is not the last one of the key. -/
theorem stored_without (before after : List Op) {op : Op} {k : String}
    (h : op.key = k → ∃ op' ∈ after, op'.key = k) :
    stored (before ++ after) k = stored (before ++ op :: after) k := by
  rw [stored, stored, List.foldl_append, List.foldl_append, List.foldl_cons]
  refine foldl_ops_congr after fun hno => ?_
  by_cases hk : op.key = k
  · obtain ⟨op', hop', hkey⟩ := h hk
    exact (hno op' hop' hkey).elim
  · exact (Op.apply_of_ne (Ne.symm hk) _).symm

theorem put_of_foldl {ops : List Op} {map : String → Option ColdEntry} {k : String} {entry : ColdEntry}
    (h : ops.foldl Op.apply map k = some entry) :
    .put k entry.className entry.value ∈ ops ∨ map k = some entry := by
  induction ops generalizing map with
  | nil => exact .inr h
  | cons op ops ih =>
    rcases ih h with hmem | hmap
    · exact .inl (List.mem_cons_of_mem op hmem)
    · by_cases hk : k = op.key
      · subst hk
        cases op with
        | put key className value =>
          rw [Op.apply, Op.key, Function.update_self] at hmap
          rw [← Option.some.inj hmap]
          exact .inl List.mem_cons_self
        | remove key =>
          rw [Op.apply, Op.key, Function.update_self] at hmap
          cases hmap
      · rw [Op.apply_of_ne hk] at hmap
        exact .inr hmap

/-- What is stored was put. -/
theorem put_of_stored {ops : List Op} {k : String} {entry : ColdEntry}
    (h : stored ops k = some entry) : .put k entry.className entry.value ∈ ops :=
  (put_of_foldl h).resolve_right (Option.some_ne_none _).symm

/-! ### The damaged directory -/

theorem Layout.replace_records (L : Layout codec) (path : Path) (rs : List (Record codec)) :
    (L.replace path rs).records path = rs := Function.update_self ..

theorem Layout.replace_records_of_ne {p : Path} (h : p ≠ path) (rs : List (Record codec)) :
    (L.replace path rs).records p = L.records p := Function.update_of_ne h ..

section Damaged

variable {pre post : List (Record codec)} {r : Record codec} {d : Bytes}

theorem Layout.Describes.path_of_records (hd : L.Describes classes disk)
    (hrs : L.records path = pre ++ r :: post) : disk.file? path ≠ none := by
  intro hnone
  rw [(hd.absent path hnone).1] at hrs
  exact List.append_ne_nil_of_right_ne_nil pre (List.cons_ne_nil r post) hrs.symm

theorem Layout.Describes.overwrite_file? (hd : L.Describes classes disk)
    (hwhole : ∀ p, L.tail p = []) (hrs : L.records path = pre ++ r :: post)
    (hlen : d.length = r.bytes.length) (p : Path) :
    (disk.overwrite path (pre.flatMap Record.bytes).length d).file? p =
      if p = path then some (pre.flatMap Record.bytes ++ (d ++ post.flatMap Record.bytes))
      else disk.file? p := by
  obtain ⟨bytes, hb⟩ := Option.ne_none_iff_exists'.mp (hd.path_of_records hrs)
  have hbytes : bytes = pre.flatMap Record.bytes ++ (r.bytes ++ post.flatMap Record.bytes) := by
    rw [hd.file path bytes hb, hwhole, List.append_nil, Layout.bytes, hrs, List.flatMap_append,
      List.flatMap_cons]
  rw [Disk.overwrite, Disk.write_file?, hb, Option.getD_some, hbytes, List.take_left, hlen,
    ← List.drop_drop, List.drop_left, List.drop_left]

theorem Layout.Describes.overwrite_ids (hd : L.Describes classes disk)
    (hrs : L.records path = pre ++ r :: post) (offset : ℕ) (name : String) :
    (disk.overwrite path offset d).ids name = disk.ids name :=
  (Disk.write_mends (hd.path_of_records hrs) _).2.1 name

theorem Layout.Describes.overwrite_dirs (hd : L.Describes classes disk)
    (hrs : L.records path = pre ++ r :: post) (offset : ℕ) (name : String) :
    name ∈ (disk.overwrite path offset d).dirs.keys ↔ name ∈ disk.dirs.keys :=
  (Disk.write_mends (hd.path_of_records hrs) _).2.2 name

/-- The damage leaves the segments in their order. -/
theorem Layout.Describes.overwrite_paths (hd : L.Describes classes disk)
    (hrs : L.records path = pre ++ r :: post) (offset : ℕ) :
    (disk.overwrite path offset d).paths = disk.paths := by
  have hkeys : (disk.overwrite path offset d).dirs.keys = disk.dirs.keys :=
    OrderedDict.keys_insert_of_mem _ (Disk.mem_dirs_of_file path (hd.path_of_records hrs))
  rw [Disk.paths, Disk.paths, hkeys]
  refine List.flatMap_congr fun name _ => ?_
  rw [Disk.segmentFiles, Disk.segmentFiles, hd.overwrite_ids hrs]

/-! ### Records beside the damage -/

/-- Another record of the segment, and where it stands. -/
theorem record_beside {pre' post' : List (Record codec)} {r' : Record codec}
    (heq : pre ++ r :: post = pre' ++ r' :: post') :
    (pre = pre' ∧ r = r' ∧ post = post') ∨
      (∃ mid, pre = pre' ++ r' :: mid) ∨ ∃ mid, pre' = pre ++ r :: mid ∧ post = mid ++ r' :: post' := by
  rcases List.append_eq_append_iff.mp heq with ⟨mid, hpre', hrest⟩ | ⟨mid, hpre, hrest⟩
  · rcases mid with _ | ⟨x, mid⟩
    · rw [List.append_nil] at hpre'
      obtain ⟨hr, hpost⟩ := List.cons.inj hrest
      exact .inl ⟨hpre'.symm, hr, hpost⟩
    · obtain ⟨rfl, hpost⟩ := List.cons.inj hrest
      exact .inr (.inr ⟨mid, hpre', hpost⟩)
  · rcases mid with _ | ⟨x, mid⟩
    · rw [List.append_nil] at hpre
      obtain ⟨hr, hpost⟩ := List.cons.inj hrest
      exact .inl ⟨hpre, hr.symm, hpost.symm⟩
    · obtain ⟨rfl, -⟩ := List.cons.inj hrest
      exact .inr (.inl ⟨mid, hpre⟩)

/-- At the offset of the damage stands the damaged record. -/
theorem record_at_offset {pre' post' : List (Record codec)} {r' : Record codec}
    (heq : pre ++ r :: post = pre' ++ r' :: post')
    (hoffset : (pre'.flatMap Record.bytes).length = (pre.flatMap Record.bytes).length) : r' = r := by
  rcases record_beside heq with ⟨-, hr, -⟩ | ⟨mid, hpre⟩ | ⟨mid, hpre', -⟩
  · exact hr.symm
  · have hpos := r'.bytes_pos
    rw [hpre, List.flatMap_append, List.flatMap_cons, List.length_append, List.length_append] at hoffset
    omega
  · have hpos := r.bytes_pos
    rw [hpre', List.flatMap_append, List.flatMap_cons, List.length_append, List.length_append] at hoffset
    omega

/-- The bytes of the other records are as they were. -/
theorem slice_beside {pre' post' : List (Record codec)} {r' : Record codec}
    (heq : pre ++ r :: post = pre' ++ r' :: post') (hlen : d.length = r.bytes.length)
    (hoffset : (pre'.flatMap Record.bytes).length ≠ (pre.flatMap Record.bytes).length) :
    (pre'.flatMap Record.bytes).length + r'.bytes.length ≤
      (pre.flatMap Record.bytes ++ (d ++ post.flatMap Record.bytes)).length ∧
    slice (pre.flatMap Record.bytes ++ (d ++ post.flatMap Record.bytes))
      (pre'.flatMap Record.bytes).length r'.bytes.length = r'.bytes := by
  rcases record_beside heq with ⟨hpre, -, -⟩ | ⟨mid, hpre⟩ | ⟨mid, hpre', hpost⟩
  · exact (hoffset (by rw [hpre])).elim
  · have hsplit : pre.flatMap Record.bytes ++ (d ++ post.flatMap Record.bytes) =
        pre'.flatMap Record.bytes ++ r'.bytes ++
          (mid.flatMap Record.bytes ++ (d ++ post.flatMap Record.bytes)) := by
      rw [hpre]
      simp only [List.flatMap_append, List.flatMap_cons, List.append_assoc]
    refine ⟨?_, slice_eq_mid _ _ _ hsplit rfl rfl⟩
    rw [hsplit, List.length_append, List.length_append]
    omega
  · have hsplit : pre.flatMap Record.bytes ++ (d ++ post.flatMap Record.bytes) =
        pre.flatMap Record.bytes ++ d ++ mid.flatMap Record.bytes ++ r'.bytes ++
          post'.flatMap Record.bytes := by
      rw [hpost]
      simp only [List.flatMap_append, List.flatMap_cons, List.append_assoc]
    have hstart : (pre.flatMap Record.bytes ++ d ++ mid.flatMap Record.bytes).length =
        (pre'.flatMap Record.bytes).length := by
      rw [hpre', List.flatMap_append, List.flatMap_cons, List.length_append, List.length_append,
        List.length_append, List.length_append, hlen]
      omega
    refine ⟨?_, slice_eq_mid _ _ _ hsplit hstart rfl⟩
    rw [hsplit, List.length_append, List.length_append, hstart]
    omega

end Damaged

/-! ### Damage that reads as no record -/

theorem Record.op_key (r : Record codec) : r.op.key = r.key := by
  rw [Record.op]
  cases r.value <;> rfl

section Dropped

variable {pre post : List (Record codec)} {r : Record codec} {d : Bytes}

theorem Layout.Describes.dropped_covers (hd : L.Describes classes disk)
    (hwhole : ∀ p, L.tail p = []) (hrs : L.records path = pre ++ r :: post)
    (hlen : d.length = r.bytes.length) (hdead : Dead d (post.flatMap Record.bytes)) :
    (L.replace path (pre ++ post)).Covers classes
      (disk.overwrite path (pre.flatMap Record.bytes).length d) where
  file := by
    intro p bytes hb
    rw [hd.overwrite_file? hwhole hrs hlen] at hb
    split at hb
    next hp =>
      rw [← Option.some.inj hb, hp, replace_records]
      exact ⟨pre, post, d, rfl, rfl, hdead⟩
    next hp =>
      rw [replace_records_of_ne hp, hd.file p bytes hb, hwhole, List.append_nil]
      exact Damaged.whole _
  absent := by
    intro p hnone
    rw [hd.overwrite_file? hwhole hrs hlen] at hnone
    split at hnone
    · cases hnone
    next hp =>
      rw [replace_records_of_ne hp]
      exact (hd.absent p hnone).1
  home := by
    intro p x hx
    by_cases hp : p = path
    · subst hp
      rw [replace_records, List.mem_append] at hx
      refine hd.home p x ?_
      rw [hrs, List.mem_append, List.mem_cons]
      exact hx.imp_right .inr
    · rw [replace_records_of_ne hp] at hx
      exact hd.home p x hx
  dirs := fun name hn => hd.dirs name ((hd.overwrite_dirs hrs _ name).mp hn)

/-- The log of the directory and its calls, around the damaged record. -/
theorem Layout.Describes.split_at (hd : L.Describes classes disk)
    (hrs : L.records path = pre ++ r :: post) :
    ∃ front back, L.ops disk = front ++ r.op :: back ∧
      (L.replace path (pre ++ post)).ops disk = front ++ back ∧
      ∀ key location, L.ending disk key = some location → r.key = key →
        ¬ (location.path = path ∧ location.offset = (pre.flatMap Record.bytes).length) →
          ∃ op ∈ back, op.key = key := by
  obtain ⟨ps, qs, hpaths⟩ := List.append_of_mem (Disk.mem_paths_iff.mpr (hd.path_of_records hrs))
  have hnodup := disk.nodup_paths
  rw [hpaths, List.nodup_append, List.nodup_cons] at hnodup
  have hops {xs : List Path} (hxs : path ∉ xs) :
      (xs.flatMap fun p => ((L.replace path (pre ++ post)).records p).map Record.op) =
        xs.flatMap fun p => (L.records p).map Record.op := by
    refine List.flatMap_congr fun p hp => ?_
    have hne : p ≠ path := by
      rintro rfl
      exact hxs hp
    rw [replace_records_of_ne hne]
  have hps : path ∉ ps := fun h => hnodup.2.2 path h path List.mem_cons_self rfl
  refine ⟨(ps.flatMap fun p => (L.records p).map Record.op) ++ pre.map Record.op,
    post.map Record.op ++ qs.flatMap fun p => (L.records p).map Record.op, ?_, ?_, ?_⟩
  · rw [ops, hpaths, List.flatMap_append, List.flatMap_cons, hrs, List.map_append, List.map_cons]
    simp only [List.append_assoc, List.cons_append]
  · rw [ops, hpaths, List.flatMap_append, List.flatMap_cons, hops hps, hops hnodup.2.1.1,
      replace_records, List.map_append]
    simp only [List.append_assoc]
  · intro key location hending hkey hplace
    have hlast := Option.join_eq_some_iff.mp hending
    have hseg : L.segmentLog path = Record.entries path 0 pre ++
        r.entry path (pre.flatMap Record.bytes).length ::
          Record.entries path ((pre.flatMap Record.bytes).length + r.bytes.length) post := by
      rw [segmentLog, hrs, Record.entries_append, Nat.zero_add]
      rfl
    rw [hpaths, List.flatMap_append, List.flatMap_cons, hseg, Replay.last_append,
      Replay.last_append, Replay.last_append, Replay.last] at hlast
    -- a later entry of the key is in the rest of the segment or in a later one
    have hlater : (∃ x ∈ post, x.key = key) ∨ ∃ p ∈ qs, ∃ x ∈ L.records p, x.key = key := by
      cases hq : Replay.last (qs.flatMap L.segmentLog) key with
      | some y =>
        obtain ⟨e, he, hek, -⟩ := Replay.exists_of_last hq
        obtain ⟨p, hp, he⟩ := List.mem_flatMap.mp he
        obtain ⟨pre', x, post', hx, rfl⟩ := Record.exists_of_mem_entries he
        refine .inr ⟨p, hp, x, ?_, hek⟩
        rw [hx]
        exact List.mem_append_right pre' List.mem_cons_self
      | none =>
        cases hp : Replay.last (Record.entries path
            ((pre.flatMap Record.bytes).length + r.bytes.length) post) key with
        | some y =>
          obtain ⟨e, he, hek, -⟩ := Replay.exists_of_last hp
          obtain ⟨pre', x, post', hx, rfl⟩ := Record.exists_of_mem_entries he
          refine .inl ⟨x, ?_, hek⟩
          rw [hx]
          exact List.mem_append_right pre' List.mem_cons_self
        | none =>
          have hentry : (r.entry path (pre.flatMap Record.bytes).length).key = key := hkey
          rw [hq, hp, Option.none_or, Option.none_or, if_pos hentry, Option.some_or,
            Option.some_or, Option.some.injEq] at hlast
          obtain ⟨v, -, rfl⟩ := Option.map_eq_some_iff.mp hlast
          exact (hplace ⟨rfl, rfl⟩).elim
    rcases hlater with ⟨x, hx, hxk⟩ | ⟨p, hp, x, hx, hxk⟩
    · exact ⟨x.op, List.mem_append_left _ (List.mem_map_of_mem hx), x.op_key.trans hxk⟩
    · exact ⟨x.op, List.mem_append_right _ (List.mem_flatMap.mpr ⟨p, hp, List.mem_map_of_mem hx⟩),
        x.op_key.trans hxk⟩

theorem Layout.Describes.contains_dropped (hd : L.Describes classes disk) (hcodec : codec.RoundTrips)
    (hinj : Set.InjOn (classDirectory codec) classes) (root : String) (hwhole : ∀ p, L.tail p = [])
    (hrs : L.records path = pre ++ r :: post) (hlen : d.length = r.bytes.length)
    (hdead : Dead d (post.flatMap Record.bytes)) (hagree : (L.replace path (pre ++ post)).Agreeing disk) :
    Contains codec root L disk path (pre.flatMap Record.bytes).length d := by
  intro options
  have hpaths := hd.overwrite_paths (d := d) hrs (pre.flatMap Record.bytes).length
  have hagree' : (L.replace path (pre ++ post)).Agreeing
      (disk.overwrite path (pre.flatMap Record.bytes).length d) := by
    rw [Agreeing, hpaths]
    exact hagree
  obtain ⟨s, after, hopen, -, -, -, -, hget⟩ :=
    (hd.dropped_covers hwhole hrs hlen hdead).reopens root hcodec hinj hagree' options
  obtain ⟨front, back, hops, hops', hlater⟩ := hd.split_at hrs
  have hdamaged : (L.replace path (pre ++ post)).ops
      (disk.overwrite path (pre.flatMap Record.bytes).length d) = front ++ back := by
    rw [← hops', ops, ops, hpaths]
  refine ⟨s, after, hopen, fun key location hending hplace => ?_, fun key entry hread => ?_⟩
  · rw [hget, hdamaged, hops]
    refine congrArg _ (stored_without front back fun hkey => ?_)
    exact hlater key location hending (r.op_key.symm.trans hkey) hplace
  · rw [hget, hdamaged, Except.ok.injEq] at hread
    have hmem := put_of_stored hread
    rw [hops, List.mem_append, List.mem_cons]
    rw [List.mem_append] at hmem
    exact hmem.imp_right .inr

end Dropped

/-! ### Damage that keeps the frame -/

section Framed

variable {pre post : List (Record codec)} {r : Record codec} {d : Bytes}

/-- A scan passes over a damaged record as over the record it was. -/
theorem scanSegment_framed (path : Path) (hd : Framed r d) {index j : Index}
    (hj : Replay.replay RecordLocation.className index (Record.entries path 0 (pre ++ r :: post)) =
      some j) :
    scanSegment path (pre.flatMap Record.bytes ++ (d ++ post.flatMap Record.bytes)) index =
      (.ok (pre.flatMap Record.bytes ++ (d ++ post.flatMap Record.bytes)).length, j) := by
  rw [Record.entries_append, Nat.zero_add, Replay.replay_append] at hj
  obtain ⟨i, hi, hj⟩ := Option.bind_eq_some_iff.mp hj
  obtain ⟨i', hi', hj⟩ := Option.bind_eq_some_iff.mp hj
  have hpre := scanFrom_records path [] (d ++ post.flatMap Record.bytes) pre index
  rw [List.length_nil, List.nil_append, Nat.zero_add, hi] at hpre
  dsimp only at hpre
  have hround := scanFrom_framed path (pre.flatMap Record.bytes) (post.flatMap Record.bytes) hd i
  rw [hi'] at hround
  dsimp only at hround
  have hpost := scanFrom_records path (pre.flatMap Record.bytes ++ d) [] post i'
  rw [List.append_nil, List.append_assoc, List.length_append, hd.length, hj] at hpost
  dsimp only at hpost
  rw [hd.length] at hround
  rw [scanSegment, hpre, hround, hpost, scanFrom, dif_neg]
  · rw [List.length_append, List.length_append, hd.length, Nat.add_assoc]
  · rw [List.length_append, List.length_append, hd.length]
    omega

/-- A damaged record that keeps its frame keeps its place in the index. -/
theorem Layout.Describes.reopens_framed (hd : L.Describes classes disk)
    (hinj : Set.InjOn (classDirectory codec) classes) (root : String) (hwhole : ∀ p, L.tail p = [])
    (hagree : L.Agreeing disk) (hrs : L.records path = pre ++ r :: post) (hframed : Framed r d)
    (options : Options) :
    ∃ s after,
      openWithLimit root options (disk.overwrite path (pre.flatMap Record.bytes).length d) =
        (.ok s, after) ∧
      (∀ p, after.file? p = if p = path then
        some (pre.flatMap Record.bytes ++ (d ++ post.flatMap Record.bytes)) else disk.file? p) ∧
      s.maps = Dict.empty ∧ ∀ k, Dict.get? s.index k = L.ending disk k := by
  have hfile (p : Path) := hd.overwrite_file? hwhole hrs hframed.length p
  have hpaths := hd.overwrite_paths (d := d) hrs (pre.flatMap Record.bytes).length
  have hexists : ∀ p ∈ disk.paths, (disk.overwrite path (pre.flatMap Record.bytes).length d).file? p =
      some (((disk.overwrite path (pre.flatMap Record.bytes).length d).file? p).getD []) := by
    intro p hp
    rw [← hpaths] at hp
    obtain ⟨bytes, hb⟩ := Option.ne_none_iff_exists'.mp (Disk.mem_paths_iff.mp hp)
    rw [hb, Option.getD_some]
  -- one round: the damaged segment, or one that is whole
  have hround : ∀ p ∈ disk.paths, ∀ (acc : Rebuilt) (i : Index), acc.disk.file? p =
      some (((disk.overwrite path (pre.flatMap Record.bytes).length d).file? p).getD []) →
      Replay.replay RecordLocation.className acc.index (L.segmentLog p) = some i →
        ∃ acc', acc.segment root p = (.ok (), acc') ∧
          (∀ k, Dict.get? acc'.index k = Dict.get? i k) ∧ acc.Mends acc' p
            (((disk.overwrite path (pre.flatMap Record.bytes).length d).file? p).getD []) := by
    intro p hp acc i hgiven hi
    by_cases hpp : p = path
    · subst hpp
      rw [hfile, if_pos rfl, Option.getD_some] at hgiven ⊢
      have hlog : L.segmentLog p = Record.entries p 0 (pre ++ r :: post) := by
        rw [Layout.segmentLog, hrs]
      rw [hlog] at hi
      have hscan := scanSegment_framed p hframed hi
      refine ⟨acc.settle p i (pre.flatMap Record.bytes ++ (d ++ post.flatMap Record.bytes)).length, ?_,
        fun _ => rfl, ?_⟩
      · rw [Rebuilt.segment, hgiven, Option.getD_some, hscan]
      · rw [← List.append_nil (pre.flatMap Record.bytes ++ (d ++ post.flatMap Record.bytes))] at hgiven
        exact Rebuilt.settle_mends hgiven i
    · rw [hfile, if_neg hpp] at hgiven ⊢
      obtain ⟨bytes, hb⟩ := Option.ne_none_iff_exists'.mp (Disk.mem_paths_iff.mp hp)
      have hbytes : bytes = (L.records p).flatMap Record.bytes := by
        rw [hd.file p bytes hb, hwhole, List.append_nil, Layout.bytes]
      rw [hb, Option.getD_some, hbytes] at hgiven ⊢
      exact Rebuilt.segment_replay root hgiven (Damaged.whole _) (hd.covers.damagedAt hinj hp).1 hi
  obtain ⟨j, hj⟩ := Option.ne_none_iff_exists'.mp hagree
  obtain ⟨acc, hacc, hget, hleft, -, -⟩ := @Rebuilt.segments_loop root L.segmentLog _ _
    ⟨Dict.empty, disk.overwrite path (pre.flatMap Record.bytes).length d, 0, 0⟩ disk.paths
    disk.nodup_paths hround hexists j hj
  refine ⟨_, acc.disk, by rw [openWithLimit, rebuildIndex, hpaths, hacc], fun p => ?_, rfl,
    fun k => ?_⟩
  · rw [hleft]
    split
    next hp => rw [← hexists p hp, hfile]
    next hp => exact hfile p
  · rw [hget, Replay.get?_replay hj, Layout.ending, Dict.get?_empty]
    cases Replay.last (disk.paths.flatMap L.segmentLog) k <;> rfl

theorem Layout.Describes.contains_framed (hd : L.Describes classes disk) (hcodec : codec.RoundTrips)
    (hinj : Set.InjOn (classDirectory codec) classes) (root : String) (hwhole : ∀ p, L.tail p = [])
    (hagree : L.Agreeing disk) (hrs : L.records path = pre ++ r :: post) (hframed : Framed r d)
    (hread : ∀ entry, decodeValueRecord codec d r.key = .ok entry →
      .put r.key entry.className entry.value ∈ L.ops disk) :
    Contains codec root L disk path (pre.flatMap Record.bytes).length d := by
  intro options
  obtain ⟨s, after, hopen, hfile, hmaps, hindex⟩ :=
    hd.reopens_framed hinj root hwhole hagree hrs hframed options
  have hnomaps : ∀ p n, Dict.get? s.maps p = some n → n ≤ after.len p := by
    intro p n hn
    rw [hmaps, Dict.get?_empty] at hn
    cases hn
  -- every other record is read where it stands
  have hother : ∀ key location, L.ending disk key = some location →
      ¬ (location.path = path ∧ location.offset = (pre.flatMap Record.bytes).length) →
        (s.get codec after key).1 = .ok (stored (L.ops disk) key) := by
    intro key location hending hplace
    obtain ⟨r', v, hat, rfl, hv, hstored⟩ := (L.ends disk key).put location
      (Option.join_eq_some_iff.mp hending)
    have hslice : ∃ bytes, after.file? location.path = some bytes ∧
        location.offset + location.totalLen ≤ bytes.length ∧
          slice bytes location.offset location.totalLen = r'.bytes := by
      by_cases hp : location.path = path
      · obtain ⟨⟨pre', post', hrs', hoffset⟩, htotal, -⟩ := hat
        rw [hp, hrs] at hrs'
        have hne : (pre'.flatMap Record.bytes).length ≠ (pre.flatMap Record.bytes).length :=
          fun h => hplace ⟨hp, hoffset.trans h⟩
        obtain ⟨hend, hs⟩ := slice_beside hrs' hframed.length hne
        rw [hoffset, htotal]
        exact ⟨_, by rw [hfile, if_pos hp], hend, hs⟩
      · rw [hfile, if_neg hp]
        exact hd.slice_at hat
    obtain ⟨bytes, hb, hend, hs⟩ := hslice
    rw [SegmentedColdStore.get_location ((hindex r'.key).trans hending) hb hend hnomaps, hs,
      r'.decode_bytes hcodec hv, hstored]
    rfl
  refine ⟨s, after, hopen, hother, fun key entry hget => ?_⟩
  cases hending : L.ending disk key with
  | none =>
    rw [SegmentedColdStore.get, hindex, hending] at hget
    cases hget
  | some location =>
    by_cases hplace : location.path = path ∧ location.offset = (pre.flatMap Record.bytes).length
    · obtain ⟨r', v, hat, rfl, -, -⟩ := (L.ends disk key).put location
        (Option.join_eq_some_iff.mp hending)
      obtain ⟨⟨pre', post', hrs', hoffset⟩, htotal, -⟩ := hat
      rw [hplace.1, hrs] at hrs'
      obtain rfl := record_at_offset hrs' (hoffset.symm.trans hplace.2)
      have hb : after.file? location.path =
          some (pre.flatMap Record.bytes ++ (d ++ post.flatMap Record.bytes)) := by
        rw [hfile, if_pos hplace.1]
      have hs : slice (pre.flatMap Record.bytes ++ (d ++ post.flatMap Record.bytes)) location.offset
          location.totalLen = d :=
        slice_eq_mid (pre.flatMap Record.bytes) d (post.flatMap Record.bytes)
          (by rw [List.append_assoc]) hplace.2.symm (hframed.length.trans htotal.symm)
      have hend : location.offset + location.totalLen ≤
          (pre.flatMap Record.bytes ++ (d ++ post.flatMap Record.bytes)).length := by
        rw [hplace.2, htotal, List.length_append, List.length_append, hframed.length]
        omega
      rw [SegmentedColdStore.get_location ((hindex _).trans hending) hb hend hnomaps, hs] at hget
      cases hdecode : decodeValueRecord codec d r'.key with
      | error e =>
        rw [hdecode] at hget
        cases hget
      | ok entry' =>
        rw [hdecode] at hget
        have hsame : entry' = entry := Option.some.inj (Except.ok.inj hget)
        rw [← hsame]
        exact hread entry' hdecode
    · rw [hother key location hending hplace, Except.ok.injEq] at hget
      exact put_of_stored hget

end Framed

end Jaiba.Memory.Cold
