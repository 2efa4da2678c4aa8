import Jaiba.Memory.Cold.Durability
import Jaiba.Memory.Cold.Recovery

/-!
# Torn tails

The last segment of a class is cut at any byte and zeros follow. What stands in
front of the cut is whole records and a fragment of the next one. The directory
is reopened with exactly these records where neither the fragment nor the zeros
behind it hold anything that reads as a record, whatever the keys and payloads.
-/

namespace Jaiba.Memory.Cold
open Jaiba.Lib

variable {codec : Codec}

/-! ### The cut -/

/-- The records that are whole within the first `n` bytes. -/
def wholeWithin : ℕ → List (Record codec) → List (Record codec)
  | _, [] => []
  | n, r :: rs => if r.bytes.length ≤ n then r :: wholeWithin (n - r.bytes.length) rs else []

/-- What the first `n` bytes hold of the record behind them. -/
def fragment : ℕ → List (Record codec) → Bytes
  | _, [] => []
  | n, r :: rs => if r.bytes.length ≤ n then fragment (n - r.bytes.length) rs else r.bytes.take n

theorem take_records (n : ℕ) (rs : List (Record codec)) :
    (rs.flatMap Record.bytes).take n = (wholeWithin n rs).flatMap Record.bytes ++ fragment n rs := by
  induction rs generalizing n with
  | nil => rw [List.flatMap_nil, List.take_nil]; rfl
  | cons r rs ih =>
    rw [List.flatMap_cons, List.take_append, wholeWithin, fragment]
    split
    next hle => rw [List.take_of_length_le hle, List.flatMap_cons, List.append_assoc, ih]
    next hlt =>
      have hzero : n - r.bytes.length = 0 := by omega
      rw [hzero, List.take_zero, List.append_nil, List.flatMap_nil, List.nil_append]

theorem prefix_of_wholeWithin (n : ℕ) (rs : List (Record codec)) : wholeWithin n rs <+: rs := by
  induction rs generalizing n with
  | nil => exact List.prefix_rfl
  | cons r rs ih =>
    rw [wholeWithin]
    split
    · exact (List.prefix_cons_inj r).mpr (ih _)
    · exact List.nil_prefix

/-- The layout of what is whole in front of the cut. -/
def Layout.upTo (L : Layout codec) (path : Path) (n : ℕ) : Layout codec where
  records := Function.update L.records path (wholeWithin n (L.records path))
  tail := fun _ => []

/-- What is torn: the fragment in front of the cut, and zeros. -/
def Layout.tornTail (L : Layout codec) (path : Path) (n m : ℕ) : Bytes :=
  fragment n (L.records path) ++ List.replicate m 0

/-- The segment is cut at byte `n`, and `m` zeros follow. -/
def Disk.torn (disk : Disk) (path : Path) (n m : ℕ) : Disk :=
  disk.write path (((disk.file? path).getD []).take n ++ List.replicate m 0)

/-- The directory is opened, with exactly the records of the layout and as their map. -/
def Reopens (codec : Codec) (root : String) (L : Layout codec) (disk : Disk) : Prop :=
  ∀ options, ∃ s after, openWithLimit root options disk = (.ok s, after) ∧
    (∀ path ∈ disk.paths, after.file? path = some (L.bytes path)) ∧
    ∀ key, (s.get codec after key).1 = .ok (stored (L.ops disk) key)

section Cut

variable {L : Layout codec} {classes : Set String} {disk : Disk} {path : Path}

theorem Layout.upTo_records (L : Layout codec) (path : Path) (n : ℕ) :
    (L.upTo path n).records path = wholeWithin n (L.records path) := Function.update_self ..

theorem Layout.upTo_records_of_ne {p : Path} (h : p ≠ path) (n : ℕ) :
    (L.upTo path n).records p = L.records p := Function.update_of_ne h ..

theorem Layout.mem_upTo {p : Path} {n : ℕ} {r : Record codec} (h : r ∈ (L.upTo path n).records p) :
    r ∈ L.records p := by
  by_cases hp : p = path
  · subst hp
    rw [upTo_records] at h
    exact (prefix_of_wholeWithin n (L.records p)).subset h
  · rwa [upTo_records_of_ne hp] at h

/-- The files of a directory whose last segment is torn. -/
theorem Layout.Describes.torn_file? (hd : L.Describes classes disk) (hwhole : ∀ p, L.tail p = [])
    (hpath : disk.file? path ≠ none) (n m : ℕ) (p : Path) :
    (disk.torn path n m).file? p =
      if p = path then some ((L.upTo path n).bytes path ++ L.tornTail path n m)
      else disk.file? p := by
  obtain ⟨bytes, hb⟩ := Option.ne_none_iff_exists'.mp hpath
  have hbytes : bytes = (L.records path).flatMap Record.bytes := by
    rw [hd.file path bytes hb, hwhole, List.append_nil, Layout.bytes]
  rw [Disk.torn, Disk.write_file?, hb, Option.getD_some, hbytes, take_records, Layout.bytes,
    upTo_records, tornTail, List.append_assoc]

theorem Disk.torn_dirs (hpath : disk.file? path ≠ none) (n m : ℕ) (name : String) :
    name ∈ (disk.torn path n m).dirs.keys ↔ name ∈ disk.dirs.keys :=
  (Disk.write_mends hpath _).2.2 name

/-- Where nothing in the torn tail reads as a record. -/
theorem Layout.Describes.torn_covers (hd : L.Describes classes disk) (hwhole : ∀ p, L.tail p = [])
    (hpath : disk.file? path ≠ none) {n m : ℕ} (hnone : findRecord (L.tornTail path n m) 0 = none) :
    (L.upTo path n).Covers classes (disk.torn path n m) where
  file := by
    intro p bytes hb
    rw [hd.torn_file? hwhole hpath] at hb
    split at hb
    next hp =>
      rw [← Option.some.inj hb, hp]
      exact Damaged.tail hnone
    next hp =>
      rw [upTo_records_of_ne hp, hd.file p bytes hb, hwhole, List.append_nil]
      exact Damaged.whole _
  absent := by
    intro p hnone
    rw [hd.torn_file? hwhole hpath] at hnone
    split at hnone
    · cases hnone
    next hp =>
      rw [upTo_records_of_ne hp]
      exact (hd.absent p hnone).1
  home := fun p r hr => hd.home p r (mem_upTo hr)
  dirs := fun name hn => hd.dirs name ((Disk.torn_dirs hpath n m name).mp hn)

/-- A cut of the last segment leaves the beginning of the log of its class. -/
theorem Layout.Describes.torn_log (hd : L.Describes classes disk)
    (hlast : (disk.segmentFiles path.dir).getLast? = some path) (n m : ℕ) (dir : String) :
    ∃ rest, L.log disk dir = (L.upTo path n).log (disk.torn path n m) dir ++ rest := by
  have hsame {d : String} {id : ℕ} (hne : (⟨d, id⟩ : Path) ≠ path) :
      (L.upTo path n).segmentLog ⟨d, id⟩ = L.segmentLog ⟨d, id⟩ := by
    rw [segmentLog, upTo_records_of_ne hne, segmentLog]
  by_cases hdir : dir = path.dir
  · subst hdir
    obtain ⟨init, hlt, hids, hlog⟩ := log_split path (Disk.ids_le_of_getLast? hlast).2
      (fun hnone => (hd.absent path hnone).1)
      (((disk.file? path).getD []).take n ++ List.replicate m 0)
    obtain ⟨rest, hrest⟩ := prefix_of_wholeWithin n (L.records path)
    have hinit : (init.flatMap fun id => (L.upTo path n).segmentLog ⟨path.dir, id⟩) =
        init.flatMap fun id => L.segmentLog ⟨path.dir, id⟩ :=
      List.flatMap_congr fun id hid => hsame fun h => (hlt id hid).ne (congrArg Path.id h)
    have hseg : L.segmentLog path = (L.upTo path n).segmentLog path ++
        Record.entries path ((wholeWithin n (L.records path)).flatMap Record.bytes).length rest := by
      have happ := Record.entries_append path 0 (wholeWithin n (L.records path)) rest
      rw [hrest, Nat.zero_add] at happ
      rw [segmentLog, segmentLog, upTo_records, happ]
    refine ⟨Record.entries path ((wholeWithin n (L.records path)).flatMap Record.bytes).length rest, ?_⟩
    rw [hlog, hseg, log, Disk.torn, hids, List.flatMap_append, List.flatMap_singleton, hinit,
      List.append_assoc]
  · refine ⟨[], ?_⟩
    rw [log, log, Disk.torn, Disk.write_ids_other disk path _ hdir, List.append_nil]
    exact List.flatMap_congr fun id _ => (hsame fun h => hdir (congrArg Path.dir h)).symm

theorem Layout.Describes.torn_opens (hd : L.Describes classes disk)
    (hlast : (disk.segmentFiles path.dir).getLast? = some path) (hopens : L.Opens classes disk)
    (n m : ℕ) : (L.upTo path n).Opens classes (disk.torn path n m) := by
  intro c hc k hfirst
  obtain ⟨rest, hrest⟩ := hd.torn_log hlast n m (classDirectory codec c)
  refine hopens c hc k ?_
  rw [hrest, Replay.first_append, hfirst, Option.some_or]

end Cut

/-! ### What a tail that is not empty of records comes to -/

/-- A record is read from its own bytes only. -/
theorem recordLen_slice {bytes : Bytes} {n : ℕ} (h : recordLen bytes = some n) (more : Bytes) :
    recordLen (bytes.take n ++ more) = some n := by
  have hle := recordLen_le h
  have hlen : (bytes.take n).length = n := by
    rw [List.length_take]
    omega
  have hhead : (bytes.take n ++ more).take headerLen = bytes.take headerLen := by
    rw [List.take_append_of_le_length (by omega), List.take_take, min_eq_left hle.1]
  have hslice {start len : ℕ} (hend : start + len ≤ n) :
      slice (bytes.take n ++ more) start len = slice bytes start len := by
    rw [slice_append (by omega), slice_take hend]
  rw [recordLen, if_neg (by omega)] at h
  rw [recordLen, if_neg (by rw [List.length_append]; omega), hhead]
  cases hparse : parseHeader (bytes.take headerLen) with
  | error e =>
    rw [hparse] at h
    cases h
  | ok header =>
    rw [hparse] at h
    dsimp only at h ⊢
    split_ifs at h with hflag hend hkey hclass
    have htotal := Option.some.inj h
    have hparts := htotal
    rw [Header.totalLen] at hparts
    rw [if_neg hflag, if_neg (by rw [List.length_append]; omega), hslice (by omega),
      hslice (by omega), if_neg hkey, if_neg hclass, htotal]

theorem salvageFrom_extends (bytes : Bytes) (offset : ℕ) (kept : Bytes) :
    ∃ more, salvageFrom bytes offset kept = kept ++ more := by
  induction hd : bytes.length - offset using Nat.strong_induction_on generalizing offset kept with
  | _ d ih =>
    rw [salvageFrom]
    split
    · split
      next total hrec =>
        have hpos := recordLen_pos hrec
        obtain ⟨more, hmore⟩ := ih (bytes.length - (offset + total)) (by omega) (offset + total)
          (kept ++ slice bytes offset total) rfl
        exact ⟨slice bytes offset total ++ more, by rw [hmore, List.append_assoc]⟩
      · split
        next next hnext =>
          have hbounds := findRecord_bounds hnext
          exact ih (bytes.length - next) (by omega) next kept rfl
        · exact ⟨[], (List.append_nil kept).symm⟩
    · exact ⟨[], (List.append_nil kept).symm⟩

/-- Salvaging keeps what reads as a record. -/
theorem salvageFrom_phantom {pre tail : Bytes} {i len : ℕ} (hfind : findRecord tail 0 = some i)
    (hrec : recordLen (tail.drop i) = some len) (kept : Bytes) :
    ∃ more, salvageFrom (pre ++ tail) pre.length kept = kept ++ (slice tail i len ++ more) := by
  obtain ⟨-, hsome, hbefore⟩ := findRecord_some hfind
  have hdrop (j : ℕ) : (pre ++ tail).drop (pre.length + j) = tail.drop j := by
    rw [List.drop_append, List.drop_eq_nil_of_le (by omega), List.nil_append,
      Nat.add_sub_cancel_left]
  have hlen := (recordLen_le hrec).2
  have hpos := recordLen_pos hrec
  rw [List.length_drop] at hlen
  -- from the record on, what is kept starts with it
  have hfrom : ∃ more, salvageFrom (pre ++ tail) (pre.length + i) kept =
      kept ++ (slice tail i len ++ more) := by
    obtain ⟨more, hmore⟩ := salvageFrom_extends (pre ++ tail) (pre.length + i + len)
      (kept ++ slice tail i len)
    refine ⟨more, ?_⟩
    rw [salvageFrom, dif_pos (by rw [List.length_append]; omega)]
    split
    next total htotal =>
      rw [hdrop, hrec] at htotal
      rw [← Option.some.inj htotal, slice_append_right, hmore, List.append_assoc]
    next hnone =>
      rw [hdrop, hrec] at hnone
      cases hnone
  by_cases hzero : i = 0
  · rw [hzero, Nat.add_zero] at hfrom
    rw [hzero]
    exact hfrom
  · have hhead : recordLen (tail.drop 0) = none := hbefore 0 le_rfl (by omega)
    rw [salvageFrom, dif_pos (by rw [List.length_append]; omega)]
    split
    next total htotal =>
      have hd := hdrop 0
      rw [Nat.add_zero] at hd
      rw [hd, hhead] at htotal
      cases htotal
    · have hnext : findRecord (pre ++ tail) (pre.length + 1) = some (pre.length + i) := by
        refine findRecord_eq (by omega) (by rw [hdrop]; exact hsome) fun j hj hlt => ?_
        obtain ⟨j', rfl⟩ := Nat.exists_eq_add_of_le (show pre.length ≤ j by omega)
        rw [hdrop]
        exact hbefore j' (Nat.zero_le _) (by omega)
      split
      next next hfound =>
        rw [hnext] at hfound
        rw [← Option.some.inj hfound]
        exact hfrom
      next hnone =>
        rw [hnext] at hnone
        cases hnone

/-- A scan that passes over whole records and a record behind them does not end in front of it. -/
theorem scanSegment_phantom (path : Path) {rs : List (Record codec)} {tail : Bytes} {len n : ℕ}
    {index j : Index} (hrec : recordLen tail = some len)
    (hscan : scanSegment path (rs.flatMap Record.bytes ++ tail) index = (.ok n, j)) :
    (rs.flatMap Record.bytes).length + len ≤ n := by
  cases hi : Replay.replay RecordLocation.className index (Record.entries path 0 rs) with
  | none =>
    obtain ⟨e, j', hfatal⟩ := scanSegment_conflict path tail hi
    rw [hfatal] at hscan
    cases congrArg Prod.fst hscan
  | some i =>
    have hwhole := scanFrom_records path [] tail rs index
    rw [List.length_nil, List.nil_append, Nat.zero_add, hi] at hwhole
    dsimp only at hwhole
    rw [scanSegment, hwhole] at hscan
    have hdrop : recordLen ((rs.flatMap Record.bytes ++ tail).drop (rs.flatMap Record.bytes).length) =
        some len := by rw [List.drop_left, hrec]
    rcases @scanFrom_found path _ _ len i hdrop with ⟨index', hstep⟩ | ⟨e, hfatal⟩
    · rw [hstep] at hscan
      exact scanFrom_ok_le hscan
    · rw [hfatal] at hscan
      cases congrArg Prod.fst hscan

/-- A scan ends well only where a tail that holds a record starts with one. -/
theorem recordLen_of_scan (path : Path) {rs : List (Record codec)} {tail : Bytes} {i n : ℕ}
    {index j : Index} (hscan : scanSegment path (rs.flatMap Record.bytes ++ tail) index = (.ok n, j))
    (hfind : findRecord tail 0 = some i) : ∃ len, recordLen tail = some len := by
  refine Option.ne_none_iff_exists'.mp fun hnone => ?_
  obtain ⟨-, hsome, hbefore⟩ := findRecord_some hfind
  have hi : 1 ≤ i := by
    refine Nat.one_le_iff_ne_zero.mpr fun hzero => ?_
    rw [hzero, List.drop_zero, hnone] at hsome
    cases hsome
  cases hr : Replay.replay RecordLocation.className index (Record.entries path 0 rs) with
  | none =>
    obtain ⟨e, j', hfatal⟩ := scanSegment_conflict path tail hr
    rw [hfatal] at hscan
    cases congrArg Prod.fst hscan
  | some index' =>
    have hwhole := scanFrom_records path [] tail rs index
    rw [List.length_nil, List.nil_append, Nat.zero_add, hr] at hwhole
    dsimp only at hwhole
    rw [scanSegment, hwhole] at hscan
    have hmore : (rs.flatMap Record.bytes).length < (rs.flatMap Record.bytes ++ tail).length := by
      have hbounds := findRecord_bounds hfind
      rw [List.length_append]
      omega
    have hdrop : recordLen ((rs.flatMap Record.bytes ++ tail).drop (rs.flatMap Record.bytes).length) =
        none := by rw [List.drop_left, hnone]
    have hnext : findRecord tail 1 = some i :=
      findRecord_eq hi hsome fun j hj hlt => hbefore j (Nat.zero_le j) hlt
    rcases @scanFrom_dead path _ _ index' hmore hdrop with htail | ⟨reason, hcorrupt⟩
    · rw [htail, tailOrCorrupt, List.drop_left, hnext] at hscan
      cases congrArg Prod.fst hscan
    · rw [hcorrupt] at hscan
      cases congrArg Prod.fst hscan

theorem Rebuilt.settle_len {acc : Rebuilt} {path : Path} {bytes : Bytes}
    (hf : acc.disk.file? path = some bytes) (index : Index) {k n : ℕ} (hk : k ≤ n)
    (hlen : k ≤ bytes.length) :
    ∃ bytes', (acc.settle path index n).disk.file? path = some bytes' ∧ k ≤ bytes'.length := by
  rw [settle]
  dsimp only
  split
  · refine ⟨bytes.take n, ?_, ?_⟩
    · rw [Disk.write_file?, if_pos rfl, hf, Option.getD_some]
    · rw [List.length_take]
      omega
  · exact ⟨bytes, hf, hlen⟩

/-- A round that meets something that reads as a record in the tail keeps bytes of the tail. -/
theorem Rebuilt.segment_phantom (root : String) {acc acc' : Rebuilt} {path : Path}
    {rs : List (Record codec)} {tail : Bytes}
    (hf : acc.disk.file? path = some (rs.flatMap Record.bytes ++ tail))
    (hfind : findRecord tail 0 ≠ none) (hok : acc.segment root path = (.ok (), acc')) :
    ∃ bytes, acc'.disk.file? path = some bytes ∧ (rs.flatMap Record.bytes).length < bytes.length := by
  obtain ⟨i, hfind⟩ := Option.ne_none_iff_exists'.mp hfind
  obtain ⟨-, hsome, hbefore⟩ := findRecord_some hfind
  obtain ⟨len, hrec⟩ := Option.isSome_iff_exists.mp hsome
  have hpos := recordLen_pos hrec
  have hle := (recordLen_le hrec).2
  rw [List.length_drop] at hle
  have hgetD : (acc.disk.file? path).getD [] = rs.flatMap Record.bytes ++ tail := by
    rw [hf, Option.getD_some]
  have hlen : (rs.flatMap Record.bytes).length + len ≤ (rs.flatMap Record.bytes ++ tail).length := by
    rw [List.length_append]
    omega
  rw [segment, hgetD] at hok
  cases hscan : scanSegment path (rs.flatMap Record.bytes ++ tail) acc.index with
  | mk result index =>
    rw [hscan] at hok
    rcases result with (reason | e) | n
    · -- the salvaged segment holds the record
      dsimp only at hok
      have hsalvage := @salvage_mends { acc with index } path _ hf
      obtain ⟨more, hmore⟩ := @salvageFrom_phantom (rs.flatMap Record.bytes) tail i len hfind hrec
        (rs.flatMap Record.bytes)
      have hwhole := salvageFrom_records [] tail [] rs
      rw [List.nil_append, List.length_nil, Nat.zero_add, List.nil_append, hmore] at hwhole
      have hfile := hsalvage.file path
      rw [if_pos rfl, hwhole] at hfile
      rw [hfile, Option.getD_some] at hok
      have hagain : recordLen (slice tail i len ++ more) = some len := recordLen_slice hrec more
      cases hscan' : scanSegment path (rs.flatMap Record.bytes ++ (slice tail i len ++ more))
          (({ acc with index } : Rebuilt).salvage path).index with
      | mk result index' =>
        rw [hscan'] at hok
        rcases result with (reason' | e) | n
        · cases congrArg Prod.fst hok
        · cases congrArg Prod.fst hok
        · have hn := scanSegment_phantom path hagain hscan'
          obtain ⟨bytes', hbytes', hle'⟩ := settle_len hfile index' hn (by
            rw [List.length_append, List.length_append, length_slice (by omega)]
            omega)
          obtain rfl := congrArg Prod.snd hok
          exact ⟨bytes', hbytes', by omega⟩
    · cases congrArg Prod.fst hok
    · -- a scan that ends well has passed over a record at the start of the tail
      dsimp only at hok
      obtain ⟨len', hhead⟩ := recordLen_of_scan path hscan hfind
      have hn := scanSegment_phantom path hhead hscan
      have hpos' := recordLen_pos hhead
      have hle' := (recordLen_le hhead).2
      obtain ⟨bytes', hbytes', hlen'⟩ := settle_len hf index hn (by
        rw [List.length_append]
        omega)
      obtain rfl := congrArg Prod.snd hok
      exact ⟨bytes', hbytes', by omega⟩

/-! ### The other segments -/

theorem Rebuilt.settle_other {acc : Rebuilt} {path p : Path} (hp : p ≠ path) (index : Index) (n : ℕ) :
    (acc.settle path index n).disk.file? p = acc.disk.file? p := by
  rw [settle]
  dsimp only
  split
  · rw [Disk.write_file?, if_neg hp]
  · rfl

theorem Rebuilt.salvage_other {acc : Rebuilt} {path p : Path} (hp : p ≠ path) :
    (acc.salvage path).disk.file? p = acc.disk.file? p :=
  (acc.disk.write_file? path _ p).trans (if_neg hp)

theorem Rebuilt.segment_other (root : String) {acc acc' : Rebuilt} {path p : Path} (hp : p ≠ path)
    (hok : acc.segment root path = (.ok (), acc')) : acc'.disk.file? p = acc.disk.file? p := by
  rw [segment] at hok
  split at hok
  next index _ =>
    obtain rfl := congrArg Prod.snd hok
    exact settle_other hp _ _
  · cases congrArg Prod.fst hok
  next reason index _ =>
    dsimp only at hok
    split at hok
    · obtain rfl := congrArg Prod.snd hok
      rw [settle_other hp]
      exact @salvage_other { acc with index } path p hp
    · cases congrArg Prod.fst hok
    · cases congrArg Prod.fst hok

theorem Rebuilt.segments_cons (root : String) {acc acc' : Rebuilt} {path : Path} {paths : List Path}
    (hok : acc.segments root (path :: paths) = (.ok (), acc')) :
    ∃ acc₁, acc.segment root path = (.ok (), acc₁) ∧ acc₁.segments root paths = (.ok (), acc') := by
  rw [segments] at hok
  split at hok
  next acc₁ hstep => exact ⟨acc₁, hstep, hok⟩
  · cases congrArg Prod.fst hok

theorem Rebuilt.segments_other (root : String) {acc acc' : Rebuilt} {p : Path} {paths : List Path}
    (hp : p ∉ paths) (hok : acc.segments root paths = (.ok (), acc')) :
    acc'.disk.file? p = acc.disk.file? p := by
  induction paths generalizing acc with
  | nil =>
    obtain rfl := congrArg Prod.snd hok
    rfl
  | cons path paths ih =>
    obtain ⟨acc₁, hstep, hrest⟩ := segments_cons root hok
    rw [ih (fun h => hp (List.mem_cons_of_mem path h)) hrest,
      segment_other root (fun h => hp (List.mem_cons.mpr (.inl h))) hstep]

theorem Rebuilt.segments_phantom (root : String) {acc acc' : Rebuilt} {path : Path}
    {paths : List Path} (hnodup : paths.Nodup) (hmem : path ∈ paths) {rs : List (Record codec)}
    {tail : Bytes} (hf : acc.disk.file? path = some (rs.flatMap Record.bytes ++ tail))
    (hfind : findRecord tail 0 ≠ none) (hok : acc.segments root paths = (.ok (), acc')) :
    ∃ bytes, acc'.disk.file? path = some bytes ∧ (rs.flatMap Record.bytes).length < bytes.length := by
  induction paths generalizing acc with
  | nil => cases hmem
  | cons p paths ih =>
    obtain ⟨acc₁, hstep, hrest⟩ := segments_cons root hok
    rw [List.nodup_cons] at hnodup
    by_cases hp : path = p
    · subst hp
      rw [segments_other root hnodup.1 hrest]
      exact segment_phantom root hf hfind hstep
    · refine ih hnodup.2 ((List.mem_cons.mp hmem).resolve_left hp) ?_ hrest
      rw [segment_other root hp hstep, hf]

/-! ### Recovery -/

variable {L : Layout codec} {classes : Set String} {disk : Disk} {path : Path}

/-- A directory that is opened with exactly the records in front of the cut had
nothing else that reads as a record. -/
theorem Layout.Describes.none_of_reopens (root : String) (hd : L.Describes classes disk)
    (hwhole : ∀ p, L.tail p = []) (hpath : disk.file? path ≠ none) {n m : ℕ}
    (h : Reopens codec root (L.upTo path n) (disk.torn path n m)) :
    findRecord (L.tornTail path n m) 0 = none := by
  by_contra hfind
  obtain ⟨s, after, hopen, hfiles, -⟩ := h ⟨0, false, none⟩
  have hfile := hd.torn_file? hwhole hpath n m path
  rw [if_pos rfl] at hfile
  have hmem : path ∈ (disk.torn path n m).paths := by
    rw [Disk.mem_paths_iff, hfile]
    exact Option.some_ne_none _
  rw [openWithLimit] at hopen
  split at hopen
  · cases congrArg Prod.fst hopen
  next rebuilt hr =>
    obtain ⟨bytes, hbytes, hlong⟩ := Rebuilt.segments_phantom root (Disk.nodup_paths _) hmem hfile hfind hr
    have hsame : rebuilt.disk = after := congrArg Prod.snd hopen
    rw [hsame, hfiles path hmem] at hbytes
    rw [← Option.some.inj hbytes] at hlong
    exact lt_irrefl _ hlong

/-- The last segment of a class is cut at byte `n` and `m` zeros follow. The
directory is reopened, with exactly the records in front of the cut and as their
map, where nothing behind them reads as a record and they agree. The calls that
follow are then readable, and readable again after a further reopen exactly where
they leave the directory settled. -/
theorem torn_tail_recovered (hcodec : codec.RoundTrips)
    (hinj : Set.InjOn (classDirectory codec) classes) (root : String) (hd : L.Describes classes disk)
    (hwhole : ∀ p, L.tail p = []) (hlast : (disk.segmentFiles path.dir).getLast? = some path)
    (n m : ℕ) :
    (Reopens codec root (L.upTo path n) (disk.torn path n m) ↔
      findRecord (L.tornTail path n m) 0 = none ∧ (L.upTo path n).Agreeing (disk.torn path n m)) ∧
    (Reopens codec root (L.upTo path n) (disk.torn path n m) → L.Opens classes disk →
      ∀ options s after, openWithLimit root options (disk.torn path n m) = (.ok s, after) →
      ∀ t, (cold codec root).Reach (Orderly codec classes)
          ⟨after, some s, (L.upTo path n).ops (disk.torn path n m)⟩ t →
        (∀ s', t.store = some s' → ∀ key, (s'.get codec t.disk key).1 = .ok (stored t.log key)) ∧
        ∀ options', (∃ s' after', openWithLimit root options' t.disk = (.ok s', after') ∧
          ∀ key, (s'.get codec after' key).1 = .ok (stored t.log key)) ↔ Settled codec t.log) := by
  have hpath : disk.file? path ≠ none := by
    obtain ⟨id, hid, heq⟩ := List.mem_map.mp (List.mem_of_getLast? hlast)
    rw [← heq]
    exact (Disk.mem_ids_iff ⟨path.dir, id⟩).mp hid
  constructor
  · constructor
    · intro h
      have hnone := hd.none_of_reopens root hwhole hpath h
      obtain ⟨s, after, hopen, -⟩ := h ⟨0, false, none⟩
      exact ⟨hnone, (hd.torn_covers hwhole hpath hnone).agreeing_of_open root hinj hopen⟩
    · rintro ⟨hnone, hagree⟩ options
      obtain ⟨s, after, hopen, hcut, -, -, -, hget⟩ :=
        (hd.torn_covers hwhole hpath hnone).reopens root hcodec hinj hagree options
      refine ⟨s, after, hopen, fun p hp => ?_, hget⟩
      rw [hcut.file, if_pos hp]
  · intro h hopens options s after hopen t ht
    have hnone := hd.none_of_reopens root hwhole hpath h
    have hcovers := hd.torn_covers hwhole hpath hnone
    have hagree := hcovers.agreeing_of_open root hinj hopen
    obtain ⟨s', after', hopen', hcut, hwriters, hmaps, hindex, -⟩ :=
      hcovers.reopens root hcodec hinj hagree options
    rw [hopen] at hopen'
    have hs : s = s' := Except.ok.inj (congrArg Prod.fst hopen')
    have hafter : after = after' := congrArg Prod.snd hopen'
    subst hs hafter
    have hheld := hcovers.held hinj (hd.torn_opens hlast hopens n m) hagree hcut
    have hstart : Consistent codec classes True
        ⟨after, some s, (L.upTo path n).ops (disk.torn path n m)⟩ := by
      refine ⟨_, _, hheld, fun _ _ => rfl, fun s' hs' => ?_⟩
      rw [← Option.some.inj hs']
      refine ⟨hheld, ⟨fun c w hw => ?_, fun _ _ _ _ _ => rfl, fun p k hk => ?_⟩, hindex⟩
      · rw [hwriters, Dict.get?_empty] at hw
        cases hw
      · rw [hmaps, Dict.get?_empty] at hk
        cases hk
    exact (orderly_consistent codec root hinj hstart ht).refines root hcodec hinj

/-! ### Samples -/

/-- A directory with one segment. -/
def soleLayout (path : Path) (rs : List (Record codec)) : Layout codec where
  records p := if p = path then rs else []
  tail := fun _ => []

theorem soleLayout_describes {path : Path} {rs : List (Record codec)} {c : String} (hc : c ∈ classes)
    (hdir : classDirectory codec c = path.dir) (hrs : ∀ r ∈ rs, r.className = c) :
    (soleLayout path rs).Describes classes (Disk.empty.write path (rs.flatMap Record.bytes)) where
  file := by
    intro p bytes hb
    rw [Disk.write_file?] at hb
    split at hb
    next hp =>
      rw [← Option.some.inj hb, Layout.bytes, soleLayout]
      dsimp only
      rw [if_pos hp, List.append_nil]
    · cases hb
  absent := by
    intro p hnone
    rw [Disk.write_file?] at hnone
    split at hnone
    · cases hnone
    next hp => exact ⟨if_neg hp, rfl⟩
  torn := fun _ => .nil
  home := by
    intro p r hr
    rw [soleLayout] at hr
    dsimp only at hr
    split at hr
    next hp =>
      rw [hrs r hr, hp]
      exact ⟨hc, hdir⟩
    · cases hr
  dirs := by
    intro name hn
    rcases Disk.mem_write_dirs.mp hn with rfl | hn
    · exact ⟨c, hc, hdir⟩
    · cases hn

def samplePath : Path := ⟨classDirectory sampleCodec "a", 0⟩

/-- The value `null` under `key`. -/
def sampleRecord (key : String) (h : (utf8 key).length ≤ maxFieldBytes) : Record sampleCodec where
  key
  className := "a"
  value := some .null
  encoded := ⟨flagValue, 4, lz4Header 4 ++ [110, 117, 108, 108], sampleDigest [110, 117, 108, 108]⟩
  encodes := by
    rw [encodeRecord, validateLen_ok_iff.mpr ⟨h, by rw [maxFieldBytes] at h; omega⟩]
    rfl

theorem sampleKey_le : (utf8 "j").length ≤ maxFieldBytes ∧ (utf8 "k").length ≤ maxFieldBytes := by
  decide +kernel

def sampleLog : List (Record sampleCodec) :=
  [sampleRecord "j" sampleKey_le.1, sampleRecord "k" sampleKey_le.2]

def sampleDisk : Disk := Disk.empty.write samplePath (sampleLog.flatMap Record.bytes)

theorem sampleDisk_describes : (soleLayout samplePath sampleLog).Describes {"a"} sampleDisk := by
  refine soleLayout_describes rfl rfl fun r hr => ?_
  rcases List.mem_cons.mp hr with rfl | hr
  · rfl
  · rw [List.mem_singleton.mp hr]
    rfl

theorem sample_directory : Set.InjOn (classDirectory sampleCodec) ({"a"} : Set String) :=
  sample_directories.mono fun _ h => .inl h

/-- The second of two records is cut in its key, and three zeros follow. -/
theorem torn_tail_recovered_sample : Reopens sampleCodec "cold"
    ((soleLayout samplePath sampleLog).upTo samplePath 112) (sampleDisk.torn samplePath 112 3) :=
  ((torn_tail_recovered sampleCodec_roundTrips sample_directory "cold" sampleDisk_describes
    (fun _ => rfl) (by decide +kernel) 112 3).1).mpr
      ⟨by decide +kernel, by
        rw [Layout.Agreeing, ← Option.isSome_iff_ne_none]
        decide +kernel⟩

/-- The first record is cut behind its flag, and zeros follow: they read as a
record of the empty key. -/
theorem torn_tail_phantom : sampleCodec.RoundTrips ∧
    Set.InjOn (classDirectory sampleCodec) ({"a"} : Set String) ∧
    (soleLayout samplePath sampleLog).Describes {"a"} sampleDisk ∧
    (sampleDisk.segmentFiles samplePath.dir).getLast? = some samplePath ∧
    Reopens sampleCodec "cold" (soleLayout samplePath sampleLog) sampleDisk ∧
    ∀ s after, openWithLimit "cold" sampleOptions (sampleDisk.torn samplePath 5 48) = (.ok s, after) →
      ¬ ∀ key, (s.get sampleCodec after key).1 =
        .ok (stored (((soleLayout samplePath sampleLog).upTo samplePath 5).ops
          (sampleDisk.torn samplePath 5 48)) key) := by
  refine ⟨sampleCodec_roundTrips, sample_directory, sampleDisk_describes, by decide +kernel, ?_, ?_⟩
  · intro options
    obtain ⟨s, after, hopen, hcut, -, -, -, hget⟩ := sampleDisk_describes.covers.reopens "cold"
      sampleCodec_roundTrips sample_directory (by
        rw [Layout.Agreeing, ← Option.isSome_iff_ne_none]
        decide +kernel) options
    refine ⟨s, after, hopen, fun p hp => ?_, hget⟩
    rw [hcut.file, if_pos hp]
  · intro s after hopen hread
    have hrun : (openWithLimit "cold" sampleOptions (sampleDisk.torn samplePath 5 48)).1.toOption.all
        (fun s => !(s.get sampleCodec (openWithLimit "cold" sampleOptions
          (sampleDisk.torn samplePath 5 48)).2 "").1.isOk) = true := by decide +kernel
    rw [hopen, Except.toOption, Option.all_some, hread ""] at hrun
    cases hrun

end Jaiba.Memory.Cold
