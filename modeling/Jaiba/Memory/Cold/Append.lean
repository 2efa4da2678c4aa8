import Jaiba.Memory.Cold.Reopen

/-!
# Appends to a Cold segment

What `append_record` does to the layout of a directory. The writer of a class
knows how many bytes of whole records its segment has; it is in step with the
file as long as no failed append has left bytes behind them.
-/

namespace Jaiba.Memory.Cold
open Jaiba.Lib

variable {codec : Codec}

theorem sorted_split {l : List ℕ} (hs : l.Pairwise (· < ·)) {n : ℕ} (hle : ∀ x ∈ l, x ≤ n) :
    ∃ init : List ℕ, (∀ x ∈ init, x < n) ∧ (l = init ++ [n] ∨ l = init ∧ n ∉ l) := by
  by_cases hn : n ∈ l
  · obtain ⟨init, rest, rfl⟩ := List.append_of_mem hn
    rw [List.pairwise_append, List.pairwise_cons] at hs
    have hrest : rest = [] := by
      refine List.eq_nil_iff_forall_not_mem.mpr fun x hx => ?_
      have hlt := hs.2.1.1 x hx
      have hxn := hle x (List.mem_append_right init (List.mem_cons_of_mem n hx))
      omega
    exact ⟨init, fun x hx => hs.2.2 x hx n List.mem_cons_self, .inl (by rw [hrest])⟩
  · refine ⟨l, fun x hx => ?_, .inr ⟨rfl, hn⟩⟩
    have hxn := hle x hx
    have hne : x ≠ n := fun h => hn (h ▸ hx)
    omega

namespace Layout

/-- One more record at the end of a segment. -/
def push (L : Layout codec) (path : Path) (r : Record codec) : Layout codec where
  records := Function.update L.records path (L.records path ++ [r])
  tail := L.tail

/-- Bytes of a failed append at the end of a segment. -/
def leave (L : Layout codec) (path : Path) (bytes : Bytes) : Layout codec where
  records := L.records
  tail := Function.update L.tail path bytes

variable {L : Layout codec} {classes : Set String} {disk : Disk} {s : SegmentedColdStore}

theorem records_push (L : Layout codec) (path : Path) (r : Record codec) :
    (L.push path r).records path = L.records path ++ [r] := Function.update_self ..

theorem records_push_of_ne {path p : Path} (h : p ≠ path) (r : Record codec) :
    (L.push path r).records p = L.records p := Function.update_of_ne h _ _

theorem tail_leave (L : Layout codec) (path : Path) (bytes : Bytes) :
    (L.leave path bytes).tail path = bytes := Function.update_self ..

theorem tail_leave_of_ne {path p : Path} (h : p ≠ path) (bytes : Bytes) :
    (L.leave path bytes).tail p = L.tail p := Function.update_of_ne h _ _

theorem bytes_push (L : Layout codec) (path : Path) (r : Record codec) :
    (L.push path r).bytes path = L.bytes path ++ r.bytes := by
  rw [bytes, records_push, List.flatMap_append, bytes, List.flatMap_singleton]

/-! ### Logs -/

theorem log_split (path : Path) (hle : ∀ id ∈ disk.ids path.dir, id ≤ path.id)
    (habsent : disk.file? path = none → L.records path = []) (bytes : Bytes) :
    ∃ init : List ℕ, (∀ id ∈ init, id < path.id) ∧
      (disk.write path bytes).ids path.dir = init ++ [path.id] ∧
      L.log disk path.dir =
        (init.flatMap fun id => L.segmentLog ⟨path.dir, id⟩) ++ L.segmentLog path := by
  have hs : (disk.ids path.dir).Pairwise (· < ·) := (disk.dir path.dir).sorted
  obtain ⟨init, hlt, hids | ⟨hids, hnot⟩⟩ := sorted_split hs hle
  · have hmem : path.id ∈ disk.ids path.dir := by
      rw [hids]
      exact List.mem_append_right init List.mem_cons_self
    refine ⟨init, hlt, ?_, ?_⟩
    · rw [Disk.write_ids_of_mem bytes hmem, hids]
    · rw [log, hids, List.flatMap_append, List.flatMap_singleton]
  · have hnone : L.segmentLog path = [] := by
      rw [segmentLog, habsent (not_not.mp fun h => hnot ((Disk.mem_ids_iff path).mpr h))]
      rfl
    refine ⟨init, hlt, ?_, ?_⟩
    · rw [Disk.write_ids_last bytes (hids ▸ hlt), hids]
    · rw [log, hids, hnone, List.append_nil]

/-- A pushed record is the last of the log of its class. -/
theorem log_push (path : Path) (hle : ∀ id ∈ disk.ids path.dir, id ≤ path.id)
    (habsent : disk.file? path = none → L.records path = []) (r : Record codec) (bytes : Bytes) :
    (L.push path r).log (disk.write path bytes) path.dir =
      L.log disk path.dir ++ [r.entry path (L.bytes path).length] := by
  obtain ⟨init, hlt, hids, hlog⟩ := log_split path hle habsent bytes
  have hsame : (init.flatMap fun id => (L.push path r).segmentLog ⟨path.dir, id⟩) =
      init.flatMap fun id => L.segmentLog ⟨path.dir, id⟩ := by
    refine List.flatMap_congr fun id hid => ?_
    have hne : (⟨path.dir, id⟩ : Path) ≠ path := fun h => (hlt id hid).ne (congrArg Path.id h)
    rw [segmentLog, records_push_of_ne hne, segmentLog]
  have hlast : (L.push path r).segmentLog path =
      L.segmentLog path ++ [r.entry path (L.bytes path).length] := by
    rw [segmentLog, records_push, Record.entries_append, Nat.zero_add]
    rfl
  rw [log, hids, List.flatMap_append, List.flatMap_singleton, hsame, hlast, hlog, List.append_assoc]

theorem log_push_of_ne {path : Path} {dir : String} (h : dir ≠ path.dir) (r : Record codec)
    (bytes : Bytes) : (L.push path r).log (disk.write path bytes) dir = L.log disk dir := by
  rw [log, log, Disk.write_ids_other disk path bytes h]
  refine List.flatMap_congr fun id _ => ?_
  have hne : (⟨dir, id⟩ : Path) ≠ path := fun hp => h (congrArg Path.dir hp)
  rw [segmentLog, records_push_of_ne hne, segmentLog]

/-- A write that adds no record leaves the logs as they are. -/
theorem log_write (path : Path) (hle : ∀ id ∈ disk.ids path.dir, id ≤ path.id)
    (habsent : disk.file? path = none → L.records path = []) (bytes : Bytes) (dir : String) :
    L.log (disk.write path bytes) dir = L.log disk dir := by
  by_cases h : dir = path.dir
  · subst h
    obtain ⟨init, -, hids, hlog⟩ := log_split path hle habsent bytes
    rw [log, hids, List.flatMap_append, List.flatMap_singleton, hlog]
  · rw [log, log, Disk.write_ids_other disk path bytes h]

/-! ### Files -/

theorem Describes.old (h : L.Describes classes disk) (path : Path) :
    (disk.file? path).getD [] = L.bytes path ++ L.tail path := by
  cases hb : disk.file? path with
  | none =>
    obtain ⟨hr, ht⟩ := h.absent path hb
    rw [Layout.bytes, hr, ht]
    rfl
  | some bytes => exact h.file path bytes hb

theorem Describes.len (h : L.Describes classes disk) (path : Path) :
    disk.len path = (L.bytes path).length + (L.tail path).length := by
  rw [Disk.len, h.old, List.length_append]

/-- The segment and its writer are in step where there is no tail. -/
theorem Describes.tail_nil (h : L.Describes classes disk) {path : Path}
    (hlen : (L.bytes path).length = disk.len path) : L.tail path = [] := by
  rw [h.len] at hlen
  exact List.eq_nil_of_length_eq_zero (by omega)

theorem Describes.push (h : L.Describes classes disk) {path : Path} (htail : L.tail path = [])
    {r : Record codec} (hclass : r.className ∈ classes)
    (hdir : classDirectory codec r.className = path.dir) :
    (L.push path r).Describes classes (disk.append path r.bytes) where
  file := by
    intro p bytes hb
    rw [Disk.append, Disk.write_file?, h.old, htail, List.append_nil] at hb
    split at hb
    next hp =>
      have htail' : (L.push path r).tail p = [] := hp ▸ htail
      rw [htail', List.append_nil, hp, bytes_push]
      exact (Option.some.inj hb).symm
    next hp =>
      have hsame : (L.push path r).bytes p = L.bytes p := by
        rw [Layout.bytes, records_push_of_ne hp, Layout.bytes]
      rw [hsame]
      exact h.file p bytes hb
  absent := by
    intro p hnone
    rw [Disk.append, Disk.write_file?] at hnone
    split at hnone
    · cases hnone
    next hp =>
      rw [records_push_of_ne hp]
      exact h.absent p hnone
  torn := h.torn
  home := by
    intro p r' hr'
    by_cases hp : p = path
    · subst hp
      rw [records_push, List.mem_append, List.mem_singleton] at hr'
      rcases hr' with hr' | rfl
      · exact h.home p r' hr'
      · exact ⟨hclass, hdir⟩
    · rw [records_push_of_ne hp] at hr'
      exact h.home p r' hr'
  dirs := by
    intro name hn
    rw [Disk.append, Disk.mem_write_dirs] at hn
    rcases hn with rfl | hn
    · exact ⟨r.className, hclass, hdir⟩
    · exact h.dirs name hn

theorem Describes.leave (h : L.Describes classes disk) {path : Path} (htail : L.tail path = [])
    {bytes : Bytes} (htorn : Torn codec bytes) (hdir : path.dir ∈ disk.dirs.keys) :
    (L.leave path bytes).Describes classes (disk.append path bytes) where
  file := by
    intro p b hb
    rw [Disk.append, Disk.write_file?, h.old, htail, List.append_nil] at hb
    split at hb
    next hp =>
      rw [hp, tail_leave]
      exact (Option.some.inj hb).symm
    next hp =>
      rw [tail_leave_of_ne hp]
      exact h.file p b hb
  absent := by
    intro p hnone
    rw [Disk.append, Disk.write_file?] at hnone
    split at hnone
    · cases hnone
    next hp =>
      rw [tail_leave_of_ne hp]
      exact h.absent p hnone
  torn := by
    intro p
    by_cases hp : p = path
    · rw [hp, tail_leave]
      exact htorn
    · rw [tail_leave_of_ne hp]
      exact h.torn p
  home := h.home
  dirs := by
    intro name hn
    rw [Disk.append, Disk.mem_write_dirs] at hn
    rcases hn with rfl | hn
    · exact h.dirs _ hdir
    · exact h.dirs name hn

theorem Describes.append_nil (h : L.Describes classes disk) {path : Path}
    (hdir : path.dir ∈ disk.dirs.keys) : L.Describes classes (disk.append path []) where
  file := by
    intro p bytes hb
    rw [Disk.append, Disk.write_file?, h.old, List.append_nil] at hb
    split at hb
    next hp => rw [hp, Option.some.inj hb]
    · exact h.file p bytes hb
  absent := by
    intro p hnone
    rw [Disk.append, Disk.write_file?] at hnone
    split at hnone
    · cases hnone
    · exact h.absent p hnone
  torn := h.torn
  home := h.home
  dirs := by
    intro name hn
    rw [Disk.append, Disk.mem_write_dirs] at hn
    rcases hn with rfl | hn
    · exact h.dirs _ hdir
    · exact h.dirs name hn

theorem Describes.createDir (h : L.Describes classes disk) {c : String} (hc : c ∈ classes) :
    L.Describes classes (disk.createDir (classDirectory codec c)) where
  file := fun p bytes hb => h.file p bytes (Disk.createDir_file? .. ▸ hb)
  absent := fun p hnone => h.absent p (Disk.createDir_file? .. ▸ hnone)
  torn := h.torn
  home := h.home
  dirs := by
    intro name hn
    rw [Disk.mem_createDir] at hn
    rcases hn with rfl | hn
    · exact ⟨c, hc, rfl⟩
    · exact h.dirs name hn

/-! ### The index -/

theorem At.push {location : RecordLocation} {r : Record codec} (h : L.At location r) (path : Path)
    (r' : Record codec) : (L.push path r').At location r where
  records := by
    obtain ⟨pre, post, hrs, hoffset⟩ := h.records
    by_cases hp : location.path = path
    · refine ⟨pre, post ++ [r'], ?_, hoffset⟩
      rw [hp, records_push, ← hp, hrs, List.append_assoc, List.cons_append]
    · exact ⟨pre, post, by rw [records_push_of_ne hp, hrs], hoffset⟩
  totalLen := h.totalLen
  className := h.className

theorem at_push (L : Layout codec) (path : Path) (r : Record codec) :
    (L.push path r).At ⟨path, (L.bytes path).length, r.bytes.length, r.className⟩ r where
  records := ⟨L.records path, [], records_push L path r, rfl⟩
  totalLen := rfl
  className := rfl

/-- A record appended to the log of its class: its key must not be live in
another class, and a tombstone needs a key that is live. -/
theorem Live.push {live : String → Option RecordLocation} (hl : L.Live classes disk live)
    (hd : L.Describes classes disk) (hinj : Set.InjOn (classDirectory codec) classes)
    {path : Path} {r : Record codec} (hclass : r.className ∈ classes)
    (hdir : classDirectory codec r.className = path.dir)
    (hle : ∀ id ∈ disk.ids path.dir, id ≤ path.id)
    (hown : ∀ w, live r.key = some w → w.className = r.className)
    (htomb : r.value = none → live r.key ≠ none) (bytes : Bytes) :
    (L.push path r).Live classes (disk.write path bytes)
      (fun k => if k = r.key then (r.entry path (L.bytes path).length).value else live k) := by
  have habsent : disk.file? path = none → L.records path = [] := fun h => (hd.absent path h).1
  have hlog := log_push path hle habsent r bytes
  have hsame {c : String} (hc : c ∈ classes) (hne : c ≠ r.className) :
      (L.push path r).log (disk.write path bytes) (classDirectory codec c) =
        L.log disk (classDirectory codec c) := by
    refine log_push_of_ne (fun heq => hne ?_) r bytes
    exact hinj hc hclass (heq.trans hdir.symm)
  have hlast (k : String) :
      Replay.last (L.log disk path.dir ++ [r.entry path (L.bytes path).length]) k =
        if r.key = k then some (r.entry path (L.bytes path).length).value
        else Replay.last (L.log disk path.dir) k := by
    rw [Replay.last_append]
    by_cases hk : r.key = k
    · simp [Replay.last, Record.entry, hk]
    · simp [Replay.last, Record.entry, hk]
  refine ⟨fun c hc k => ?_, fun k v hkv => ?_, fun c hc k v hkv => ?_⟩
  · by_cases hcr : c = r.className
    · subst hcr
      rw [hdir, hlog, Replay.first_append]
      cases hf : Replay.first (L.log disk path.dir) k with
      | some x =>
        have hx := hl.opens _ hc k
        rw [hdir, hf] at hx
        exact hx
      | none =>
        rw [Option.none_or, Replay.first]
        split
        next hk =>
          intro hnone
          have hr : r.value = none := Option.map_eq_none_iff.mp (Option.some.inj hnone)
          obtain ⟨w, hw⟩ := Option.ne_none_iff_exists'.mp (htomb hr)
          obtain ⟨e, he, hek, -⟩ := Replay.exists_of_last (hl.live_last _ w hw).2
          rw [hown w hw, hdir] at he
          exact Replay.first_none_iff.mp hf e he (hek.trans hk)
        · intro hnone
          cases hnone
    · rw [hsame hc hcr]
      exact hl.opens c hc k
  · by_cases hk : k = r.key
    · rw [if_pos hk] at hkv
      obtain ⟨x, -, rfl⟩ := Option.map_eq_some_iff.mp hkv
      refine ⟨hclass, ?_⟩
      dsimp only
      rw [hdir, hlog, hlast, if_pos hk.symm, hkv]
    · rw [if_neg hk] at hkv
      obtain ⟨hv, hold⟩ := hl.live_last k v hkv
      refine ⟨hv, ?_⟩
      by_cases hcr : v.className = r.className
      · rw [hcr, hdir] at hold ⊢
        rw [hlog, hlast, if_neg (Ne.symm hk), hold]
      · rw [hsame hv hcr, hold]
  · by_cases hcr : c = r.className
    · rw [hcr, hdir, hlog, hlast] at hkv
      split at hkv
      next hk => rw [if_pos hk.symm, Option.some.inj hkv]
      next hk =>
        rw [if_neg (Ne.symm hk)]
        refine hl.last_live c hc k v ?_
        rw [hcr, hdir, hkv]
    · rw [hsame hc hcr] at hkv
      have hold := hl.last_live c hc k v hkv
      by_cases hk : k = r.key
      · obtain ⟨e, he, -, hev⟩ := Replay.exists_of_last hkv
        obtain ⟨hv, heq⟩ := hd.covers.entry_home he hev
        exact (hcr ((hinj hv hc heq).symm.trans (hown v (hk ▸ hold)))).elim
      · rw [if_neg hk, hold]

/-! ### Writers -/

/-- A writer of class `c`: it stands at the last segment of the class, or behind
it, and its size is that of the whole records there. -/
structure Ready (L : Layout codec) (disk : Disk) (c : String) (w : SegmentWriter) : Prop where
  dir : w.path.dir = classDirectory codec c
  made : w.path.dir ∈ disk.dirs.keys
  last : ∀ id ∈ disk.ids w.path.dir, id ≤ w.path.id
  size : w.size = (L.bytes w.path).length

/-- What an open store knows of the files. -/
structure Writing (L : Layout codec) (classes : Set String) (disk : Disk) (s : SegmentedColdStore) :
    Prop where
  known : ∀ c w, Dict.get? s.writers c = some w → c ∈ classes ∧ L.Ready disk c w
  unknown : ∀ c ∈ classes, Dict.get? s.writers c = none →
    ∀ path : Path, path.dir = classDirectory codec c → L.tail path = []
  maps : ∀ path n, Dict.get? s.maps path = some n → n ≤ disk.len path

theorem Ready.rotate {c : String} {w : SegmentWriter} (h : L.Ready disk c w)
    (hd : L.Describes classes disk) (s : SegmentedColdStore) (n : ℕ) :
    L.Ready disk c (s.rotate w n) := by
  rw [SegmentedColdStore.rotate]
  split
  · refine ⟨h.dir, h.made, fun id hid => ?_, ?_⟩
    · exact (h.last id hid).trans (Nat.le_succ _)
    · have hnone : disk.file? ⟨w.path.dir, w.path.id + 1⟩ = none := by
        by_contra hsome
        have hle := h.last _ ((Disk.mem_ids_iff ⟨w.path.dir, w.path.id + 1⟩).mpr hsome)
        dsimp only at hle
        omega
      rw [bytes, (hd.absent _ hnone).1]
      rfl
  · exact h

theorem Writing.ready (hw : L.Writing classes disk s) (hd : L.Describes classes disk) {c : String}
    (hc : c ∈ classes) (n : ℕ) :
    L.Ready (s.ensureDir codec disk c) c (s.chooseWriter codec disk c n) := by
  rw [SegmentedColdStore.chooseWriter, SegmentedColdStore.ensureDir,
    SegmentedColdStore.writerForClass]
  cases hk : Dict.get? s.writers c with
  | some w => exact (hw.known c w hk).2.rotate hd s n
  | none =>
    rw [Option.isNone_none, if_pos rfl]
    dsimp only
    refine Ready.rotate ?_ (hd.createDir hc) s n
    have hmade : classDirectory codec c ∈ (disk.createDir (classDirectory codec c)).dirs.keys :=
      Disk.mem_createDir.mpr (.inl rfl)
    cases hl : (disk.segmentFiles (classDirectory codec c)).getLast? with
    | some path =>
      obtain ⟨hdir, hle⟩ := Disk.ids_le_of_getLast? hl
      dsimp only
      refine ⟨hdir, hdir ▸ hmade, ?_, ?_⟩
      · dsimp only
        rw [Disk.createDir_ids, hdir]
        exact hle
      · dsimp only
        rw [hd.len, hw.unknown c hc hk path hdir, List.length_nil, Nat.add_zero]
    | none =>
      have hids : disk.ids (classDirectory codec c) = [] :=
        List.map_eq_nil_iff.mp (List.getLast?_eq_none_iff.mp hl)
      refine ⟨rfl, hmade, ?_, ?_⟩
      · intro id hid
        rw [Disk.createDir_ids, hids] at hid
        cases hid
      · have hnone : disk.file? ⟨classDirectory codec c, 0⟩ = none := by
          by_contra hsome
          have hmem := (Disk.mem_ids_iff ⟨classDirectory codec c, 0⟩).mpr hsome
          rw [hids] at hmem
          cases hmem
        rw [bytes, (hd.absent _ hnone).1]
        rfl

theorem Ready.append {c : String} {w : SegmentWriter} (h : L.Ready disk c w) (bytes : Bytes) :
    w.path.dir ∈ (disk.append w.path bytes).dirs.keys ∧
      ∀ id ∈ (disk.append w.path bytes).ids w.path.dir, id ≤ w.path.id := by
  refine ⟨Disk.mem_write_dirs.mpr (.inl rfl), fun id hid => ?_⟩
  rcases Disk.mem_write_ids hid with rfl | hid
  · exact le_rfl
  · exact h.last id hid

theorem Ready.push {c : String} {w : SegmentWriter} (h : L.Ready disk c w) (r : Record codec) :
    (L.push w.path r).Ready (disk.append w.path r.bytes) c ⟨w.path, w.size + r.bytes.length⟩ where
  dir := h.dir
  made := (h.append r.bytes).1
  last := (h.append r.bytes).2
  size := by rw [bytes_push, List.length_append, h.size]

theorem Ready.leave {c : String} {w : SegmentWriter} (h : L.Ready disk c w) (rest bytes : Bytes) :
    (L.leave w.path rest).Ready (disk.append w.path bytes) c w where
  dir := h.dir
  made := (h.append bytes).1
  last := (h.append bytes).2
  size := h.size

/-- A call on class `c` touches the writer and the files of that class only. -/
theorem Writing.next (hw : L.Writing classes disk s) (hinj : Set.InjOn (classDirectory codec) classes)
    {c : String} (hc : c ∈ classes) {L' : Layout codec} {disk' : Disk} {s' : SegmentedColdStore}
    {w' : SegmentWriter} (hready : L'.Ready disk' c w')
    (hlayout : ∀ path : Path, path.dir ≠ classDirectory codec c →
      L'.bytes path = L.bytes path ∧ L'.tail path = L.tail path)
    (hids : ∀ name, name ≠ classDirectory codec c → disk'.ids name = disk.ids name)
    (hdirs : ∀ name ∈ disk.dirs.keys, name ∈ disk'.dirs.keys)
    (hlen : ∀ path, disk.len path ≤ disk'.len path)
    (hwriters : ∀ c', Dict.get? s'.writers c' = if c' = c then some w' else Dict.get? s.writers c')
    (hmaps : ∀ path n, Dict.get? s'.maps path = some n → Dict.get? s.maps path = some n) :
    L'.Writing classes disk' s' where
  known := by
    intro c' w hw'
    rw [hwriters] at hw'
    split at hw'
    next heq =>
      rw [heq, ← Option.some.inj hw']
      exact ⟨hc, hready⟩
    next hne =>
      obtain ⟨hc', hold⟩ := hw.known c' w hw'
      have hdir : w.path.dir ≠ classDirectory codec c := by
        rw [hold.dir]
        exact fun heq => hne (hinj hc' hc heq)
      refine ⟨hc', hold.dir, hdirs _ hold.made, ?_, ?_⟩
      · rw [hids _ hdir]
        exact hold.last
      · rw [(hlayout _ hdir).1]
        exact hold.size
  unknown := by
    intro c' hc' hnone path hpath
    rw [hwriters] at hnone
    split at hnone
    · cases hnone
    next hne =>
      have hdir : path.dir ≠ classDirectory codec c := by
        rw [hpath]
        exact fun heq => hne (hinj hc' hc heq)
      rw [(hlayout _ hdir).2]
      exact hw.unknown c' hc' hnone path hpath
  maps := fun path n hn => (hw.maps path n (hmaps path n hn)).trans (hlen path)

end Layout

/-! ### Outcomes of an append -/

theorem SegmentedColdStore.ensureDir_ids (s : SegmentedColdStore) (disk : Disk) (c name : String) :
    (s.ensureDir codec disk c).ids name = disk.ids name := by
  rw [ensureDir]
  split
  · exact Disk.createDir_ids ..
  · rfl

theorem SegmentedColdStore.ensureDir_file? (s : SegmentedColdStore) (disk : Disk) (c : String)
    (path : Path) : (s.ensureDir codec disk c).file? path = disk.file? path := by
  rw [ensureDir]
  split
  · exact Disk.createDir_file? ..
  · rfl

theorem SegmentedColdStore.ensureDir_len (s : SegmentedColdStore) (disk : Disk) (c : String)
    (path : Path) : (s.ensureDir codec disk c).len path = disk.len path := by
  rw [Disk.len, ensureDir_file?, Disk.len]

theorem SegmentedColdStore.ensureDir_dirs (s : SegmentedColdStore) {disk : Disk} {c name : String}
    (h : name ∈ disk.dirs.keys) : name ∈ (s.ensureDir codec disk c).dirs.keys := by
  rw [ensureDir]
  split
  · exact Disk.mem_createDir.mpr (.inr h)
  · exact h

theorem Layout.Describes.ensureDir {L : Layout codec} {classes : Set String} {disk : Disk}
    (h : L.Describes classes disk) (s : SegmentedColdStore) {c : String} (hc : c ∈ classes) :
    L.Describes classes (s.ensureDir codec disk c) := by
  rw [SegmentedColdStore.ensureDir]
  split
  · exact h.createDir hc
  · exact h

/-- Whether a call with this fault may write a byte. -/
def Fault.mayWrite : Option Fault → Bool
  | some (.openFile _) => false
  | some (.torn 0 _) => false
  | _ => true

namespace SegmentedColdStore

/-- The store after a record of `len` bytes of class `c` was appended. -/
def grown (s : SegmentedColdStore) (c : String) (w : SegmentWriter) (len : ℕ) : SegmentedColdStore :=
  { s.enter c w with
    writers := Dict.insert (s.enter c w).writers c ⟨w.path, w.size + len⟩
    bytesOnDisk := s.bytesOnDisk + len }

theorem appendBytes_cases (s : SegmentedColdStore) (disk : Disk) (c : String) (bytes : Bytes)
    (fault : Option Fault) {w : SegmentWriter} (hw : s.chooseWriter codec disk c bytes.length = w)
    {d : Disk} (hd : s.ensureDir codec disk c = d) :
    (∃ e, s.appendBytes codec disk c bytes fault = (.error e, s, disk)) ∨
      (∃ e, s.appendBytes codec disk c bytes fault = (.error e, s.enter c w, d)) ∨
      (∃ e n text, fault = some (.torn n text) ∧
        s.appendBytes codec disk c bytes fault =
          (.error e, s.enter c w, d.append w.path (bytes.take n))) ∨
      (Fault.mayWrite fault = true ∧ s.appendBytes codec disk c bytes fault =
        (.ok ⟨w.path, w.size, bytes.length, c⟩, s.grown c w bytes.length, d.append w.path bytes)) := by
  subst hw hd
  cases fault with
  | none =>
    refine .inr (.inr (.inr ⟨rfl, ?_⟩))
    unfold appendBytes
    cases Dict.get? s.writers c <;> rfl
  | some f =>
    cases f with
    | createDir error =>
      unfold appendBytes
      cases Dict.get? s.writers c with
      | none => exact .inl ⟨_, rfl⟩
      | some known => exact .inr (.inr (.inr ⟨rfl, rfl⟩))
    | openFile error =>
      refine .inr (.inl ?_)
      unfold appendBytes
      cases Dict.get? s.writers c <;> exact ⟨_, rfl⟩
    | torn n error =>
      refine .inr (.inr (.inl ?_))
      unfold appendBytes
      cases Dict.get? s.writers c <;> exact ⟨_, n, error, rfl, rfl⟩

/-- A call is refused, or it appends the bytes of its record. -/
theorem appendRecord_cases (s : SegmentedColdStore) (disk : Disk) (key c : String)
    (value : Option Value) (fault : Option Fault) :
    (∃ e q, s.appendRecord codec disk key c value fault =
      (.error e, { s with quotaRejections := q }, disk)) ∨
    ∃ r : Record codec, r.key = key ∧ r.className = c ∧ r.value = value ∧
      s.exceedsQuota value r.bytes.length = false ∧
      s.appendRecord codec disk key c value fault = s.appendBytes codec disk c r.bytes fault := by
  rw [appendRecord]
  cases he : encodeRecord codec key c value with
  | error e => exact .inl ⟨e, s.quotaRejections, rfl⟩
  | ok encoded =>
    dsimp only
    cases hq : s.exceedsQuota value (recordBytes key c encoded).length with
    | true => exact .inl ⟨_, _, if_pos rfl⟩
    | false => exact .inr ⟨⟨key, c, value, encoded, he⟩, rfl, rfl, rfl, hq, if_neg Bool.false_ne_true⟩

/-- No call that writes a torn record answers `Ok`. -/
theorem appendRecord_torn (s : SegmentedColdStore) (disk : Disk) (key c : String)
    (value : Option Value) (n : ℕ) (text : String) (location : RecordLocation) :
    (s.appendRecord codec disk key c value (some (.torn n text))).1 ≠ .ok location := by
  intro hok
  rcases s.appendRecord_cases disk key c value (some (.torn n text)) with ⟨e, q, hout⟩ |
    ⟨r, -, -, -, -, hout⟩
  · rw [hout] at hok
    cases hok
  · rw [hout] at hok
    unfold appendBytes at hok
    cases hk : Dict.get? s.writers c <;> rw [hk] at hok <;> cases hok

end SegmentedColdStore

end Jaiba.Memory.Cold
