import Jaiba.Memory.Cold.Segment

/-!
# Cold store (`jaiba-memory/src/cold.rs`)

`SegmentedColdStore` over the segment files on disk. Files are only read and
appended while the store is open; `open_with_limit` rebuilds the index and cuts
or salvages what is damaged. The calls of `append_record` into the file system
may fail, after any number of bytes.
-/

namespace Jaiba.Memory.Cold
open Jaiba.Lib

/-! ### Disk -/

/-- The class directories with their `.jmc` files, in the order in which they
are sorted after listing, and the `.corrupt` copies. -/
structure Disk where
  dirs : OrderedDict String (OrderedDict ℕ Bytes)
  quarantine : List (Path × Bytes)

namespace Disk

def empty : Disk := ⟨OrderedDict.empty, []⟩

/-- The files of a class directory; none where there is no directory. -/
def dir (disk : Disk) (name : String) : OrderedDict ℕ Bytes :=
  (disk.dirs.get? name).getD OrderedDict.empty

def file? (disk : Disk) (path : Path) : Option Bytes := (disk.dir path.dir).get? path.id

def len (disk : Disk) (path : Path) : ℕ := ((disk.file? path).getD []).length

/-- `create_dir_all`. -/
def createDir (disk : Disk) (name : String) : Disk :=
  { disk with dirs := disk.dirs.insert name (disk.dir name) }

def write (disk : Disk) (path : Path) (bytes : Bytes) : Disk :=
  { disk with dirs := disk.dirs.insert path.dir ((disk.dir path.dir).insert path.id bytes) }

/-- A file opened with `create(true).append(true)`, and `write_all`. -/
def append (disk : Disk) (path : Path) (bytes : Bytes) : Disk :=
  disk.write path ((disk.file? path).getD [] ++ bytes)

/-- The identifiers of the segments of a directory, in ascending order. -/
def ids (disk : Disk) (name : String) : List ℕ := (disk.dir name).keys

/-- `segment_files`, sorted. -/
def segmentFiles (disk : Disk) (name : String) : List Path :=
  (disk.ids name).map fun id => ⟨name, id⟩

@[simp] theorem createDir_dir (disk : Disk) (name other : String) :
    (disk.createDir name).dir other = disk.dir other := by
  rw [dir, createDir, OrderedDict.get?_insert]
  split
  next h => rw [h, Option.getD_some]
  · rfl

theorem createDir_file? (disk : Disk) (name : String) (path : Path) :
    (disk.createDir name).file? path = disk.file? path := by
  rw [file?, createDir_dir, file?]

theorem createDir_ids (disk : Disk) (name other : String) :
    (disk.createDir name).ids other = disk.ids other := by rw [ids, createDir_dir, ids]

theorem mem_createDir {disk : Disk} {name other : String} :
    other ∈ (disk.createDir name).dirs.keys ↔ other = name ∨ other ∈ disk.dirs.keys := by
  rw [OrderedDict.mem_keys_iff, OrderedDict.mem_keys_iff, createDir, OrderedDict.get?_insert]
  split
  next h => exact ⟨fun _ => .inl h, fun _ => Option.some_ne_none _⟩
  next h => exact ⟨.inr, fun h' => h'.resolve_left h⟩

theorem write_dir (disk : Disk) (path : Path) (bytes : Bytes) (name : String) :
    (disk.write path bytes).dir name =
      if name = path.dir then (disk.dir path.dir).insert path.id bytes else disk.dir name := by
  rw [dir, write, OrderedDict.get?_insert]
  split
  · rw [Option.getD_some]
  · rfl

theorem write_file? (disk : Disk) (path : Path) (bytes : Bytes) (p : Path) :
    (disk.write path bytes).file? p = if p = path then some bytes else disk.file? p := by
  rw [file?, write_dir]
  by_cases hdir : p.dir = path.dir
  · rw [if_pos hdir, OrderedDict.get?_insert, file?, hdir]
    have hiff : p.id = path.id ↔ p = path := by
      constructor
      · intro hid
        cases p
        cases path
        exact congrArg₂ Path.mk hdir hid
      · exact fun h => congrArg Path.id h
    exact if_congr hiff rfl rfl
  · have hne : p ≠ path := fun h => hdir (congrArg Path.dir h)
    rw [if_neg hdir, if_neg hne, file?]

theorem mem_ids_iff {disk : Disk} (path : Path) :
    path.id ∈ disk.ids path.dir ↔ disk.file? path ≠ none := OrderedDict.mem_keys_iff

theorem mem_write_ids {disk : Disk} {path : Path} {bytes : Bytes} {id : ℕ}
    (h : id ∈ (disk.write path bytes).ids path.dir) : id = path.id ∨ id ∈ disk.ids path.dir := by
  have hfile := (mem_ids_iff ⟨path.dir, id⟩).mp h
  rw [write_file?] at hfile
  split at hfile
  next hp => exact .inl (congrArg Path.id hp)
  · exact .inr ((mem_ids_iff ⟨path.dir, id⟩).mpr hfile)

theorem write_ids_other (disk : Disk) (path : Path) (bytes : Bytes) {name : String}
    (h : name ≠ path.dir) : (disk.write path bytes).ids name = disk.ids name := by
  rw [ids, write_dir, if_neg h, ids]

theorem write_ids_of_mem {disk : Disk} {path : Path} (bytes : Bytes)
    (h : path.id ∈ disk.ids path.dir) (name : String) :
    (disk.write path bytes).ids name = disk.ids name := by
  by_cases hn : name = path.dir
  · rw [ids, write_dir, if_pos hn, OrderedDict.keys_insert_of_mem bytes h, hn, ids]
  · exact write_ids_other disk path bytes hn

theorem write_ids_last {disk : Disk} {path : Path} (bytes : Bytes)
    (h : ∀ id ∈ disk.ids path.dir, id < path.id) :
    (disk.write path bytes).ids path.dir = disk.ids path.dir ++ [path.id] := by
  rw [ids, write_dir, if_pos rfl, OrderedDict.keys_insert_last bytes h, ids]

theorem mem_write_dirs {disk : Disk} {path : Path} {bytes : Bytes} {name : String} :
    name ∈ (disk.write path bytes).dirs.keys ↔ name = path.dir ∨ name ∈ disk.dirs.keys := by
  rw [OrderedDict.mem_keys_iff, OrderedDict.mem_keys_iff, write, OrderedDict.get?_insert]
  split
  next h => exact ⟨fun _ => .inl h, fun _ => Option.some_ne_none _⟩
  next h => exact ⟨.inr, fun h' => h'.resolve_left h⟩

theorem append_len (disk : Disk) (path : Path) (bytes : Bytes) (p : Path) :
    disk.len p ≤ (disk.append path bytes).len p := by
  rw [len, len, append, write_file?]
  split
  next hp =>
    rw [hp, Option.getD_some, List.length_append]
    omega
  · exact le_rfl

/-- The last segment has the greatest identifier. -/
theorem ids_le_of_getLast? {disk : Disk} {name : String} {path : Path}
    (h : (disk.segmentFiles name).getLast? = some path) :
    path.dir = name ∧ ∀ id ∈ disk.ids name, id ≤ path.id := by
  rw [segmentFiles, List.getLast?_map] at h
  obtain ⟨last, hlast, rfl⟩ := Option.map_eq_some_iff.mp h
  obtain ⟨front, hfront⟩ := List.getLast?_eq_some_iff.mp hlast
  have hs : (disk.ids name).Pairwise (· < ·) := (disk.dir name).sorted
  refine ⟨rfl, fun id hid => ?_⟩
  rw [hfront] at hs hid
  rcases List.mem_append.mp hid with hid | hid
  · exact ((List.pairwise_append.mp hs).2.2 id hid last List.mem_cons_self).le
  · exact (List.mem_singleton.mp hid).le

/-- A directory with a file is a directory. -/
theorem mem_dirs_of_file {disk : Disk} (path : Path) (h : disk.file? path ≠ none) :
    path.dir ∈ disk.dirs.keys := by
  rw [OrderedDict.mem_keys_iff]
  intro hnone
  rw [file?, dir, hnone] at h
  exact h rfl

end Disk

/-! ### Store -/

structure SegmentWriter where
  path : Path
  size : ℕ

/-- `maps` is the length each mapped segment had when it was mapped. -/
structure SegmentedColdStore where
  root : String
  segmentMaxBytes : ℕ
  mmapReads : Bool
  index : Index
  writers : Dict String SegmentWriter
  maps : Dict Path ℕ
  bytesOnDisk : ℕ
  maxDiskBytes : Option ℕ
  quotaRejections : ℕ
  salvagedSegments : ℕ

/-- `{id:020}`. -/
def padded (id : ℕ) : String :=
  String.ofList (List.replicate (20 - (toString id).length) '0') ++ toString id

def Path.display (root : String) (path : Path) : String :=
  root ++ "/" ++ path.dir ++ "/segment-" ++ padded path.id ++ ".jmc"

def hexByte (byte : UInt8) : String :=
  String.ofList [Json.hexDigit (byte.toNat / 16), Json.hexDigit (byte.toNat % 16)]

def classDirectory (codec : Codec) (className : String) : String :=
  "class-" ++ String.join (((codec.digest (utf8 className)).take 12).map hexByte)

def coldIo (action : String) (path error : String) : MemoryError :=
  .cold (action ++ " " ++ path ++ ": " ++ error)

/-- A call of `append_record` that fails, with the text of its I/O error. -/
inductive Fault where
  | createDir (error : String)
  | openFile (error : String)
  /-- `write_all` fails after `written` bytes of the record, or `sync_all` after all of them -/
  | torn (written : ℕ) (error : String)

namespace SegmentedColdStore

variable (codec : Codec)

/-- `writer_for_class`, once the directory of the class exists. -/
def writerForClass (s : SegmentedColdStore) (disk : Disk) (className : String) : SegmentWriter :=
  match Dict.get? s.writers className with
  | some writer => writer
  | none =>
    match (disk.segmentFiles (classDirectory codec className)).getLast? with
    | some path => ⟨path, disk.len path⟩
    | none => ⟨⟨classDirectory codec className, 0⟩, 0⟩

/-- The writer moves on to a new segment where the record does not fit. -/
def rotate (s : SegmentedColdStore) (writer : SegmentWriter) (totalLen : ℕ) : SegmentWriter :=
  if writer.size > 0 ∧ writer.size + totalLen > s.segmentMaxBytes then
    ⟨⟨writer.path.dir, writer.path.id + 1⟩, 0⟩
  else writer

def tornError (s : SegmentedColdStore) (path : Path) (written totalLen : ℕ) (error : String) :
    MemoryError :=
  if written < headerLen then .cold ("escribir header: " ++ error)
  else if written < totalLen then coldIo "escribir segmento" (path.display s.root) error
  else coldIo "fsync segmento" (path.display s.root) error

/-- The quota binds values only. -/
def exceedsQuota (s : SegmentedColdStore) (value : Option Value) (totalLen : ℕ) : Bool :=
  value.isSome && s.maxDiskBytes.any fun limit => decide (s.bytesOnDisk + totalLen > limit)

def quotaError (s : SegmentedColdStore) (totalLen : ℕ) : MemoryError :=
  .cold ("cuota de disco Cold agotada: uso=" ++ toString s.bytesOnDisk ++ " bytes, registro=" ++
    toString totalLen ++ " bytes, límite=" ++ toString (s.maxDiskBytes.getD 0) ++ " bytes")

/-- The writer a record goes to. -/
def chooseWriter (s : SegmentedColdStore) (disk : Disk) (className : String) (totalLen : ℕ) :
    SegmentWriter := s.rotate (s.writerForClass codec disk className) totalLen

/-- `writer_for_class` creates the directory of a class it does not know. -/
def ensureDir (s : SegmentedColdStore) (disk : Disk) (className : String) : Disk :=
  if (Dict.get? s.writers className).isNone then disk.createDir (classDirectory codec className)
  else disk

/-- The store once the writer is chosen and the map of its segment dropped. -/
def enter (s : SegmentedColdStore) (className : String) (writer : SegmentWriter) :
    SegmentedColdStore :=
  { s with
    writers := Dict.insert s.writers className writer
    maps := Dict.erase s.maps writer.path }

/-- `append_record` from the call of `writer_for_class` on. -/
def appendBytes (s : SegmentedColdStore) (disk : Disk) (className : String) (bytes : Bytes)
    (fault : Option Fault) : Except MemoryError RecordLocation × SegmentedColdStore × Disk :=
  match Dict.get? s.writers className, fault with
  | none, some (.createDir error) =>
    (.error (coldIo "crear clase" (s.root ++ "/" ++ classDirectory codec className) error), s, disk)
  | _, fault =>
    let writer := s.chooseWriter codec disk className bytes.length
    let disk := s.ensureDir codec disk className
    let s := s.enter className writer
    match fault with
    | some (.openFile error) =>
      (.error (coldIo "abrir segmento" (writer.path.display s.root) error), s, disk)
    | some (.torn written error) =>
      (.error (s.tornError writer.path written bytes.length error), s,
        disk.append writer.path (bytes.take written))
    | _ =>
      (.ok ⟨writer.path, writer.size, bytes.length, className⟩,
        { s with
          writers := Dict.insert s.writers className ⟨writer.path, writer.size + bytes.length⟩
          bytesOnDisk := s.bytesOnDisk + bytes.length },
        disk.append writer.path bytes)

def appendRecord (s : SegmentedColdStore) (disk : Disk) (key className : String)
    (value : Option Value) (fault : Option Fault) :
    Except MemoryError RecordLocation × SegmentedColdStore × Disk :=
  match encodeRecord codec key className value with
  | .error error => (.error error, s, disk)
  | .ok encoded =>
    let bytes := recordBytes key className encoded
    if s.exceedsQuota value bytes.length then
      (.error (s.quotaError bytes.length),
        { s with quotaRejections := s.quotaRejections + 1 }, disk)
    else s.appendBytes codec disk className bytes fault

/-! ### Reads -/

/-- The error of `File::open` on a file that is not there. -/
def notFound : String := "No such file or directory (os error 2)"

/-- `map_segment`: the mapped bytes and the cache. -/
def mapSegment (s : SegmentedColdStore) (disk : Disk) (path : Path) :
    Except MemoryError Bytes × SegmentedColdStore :=
  match Dict.get? s.maps path with
  | some len => (.ok (((disk.file? path).getD []).take len), s)
  | none =>
    match disk.file? path with
    | none => (.error (coldIo "abrir mmap" (path.display s.root) notFound), s)
    | some bytes => (.ok bytes, { s with maps := Dict.insert s.maps path bytes.length })

/-- The read through `File`. -/
def readFile (s : SegmentedColdStore) (disk : Disk) (expectedKey : String)
    (location : RecordLocation) : Except MemoryError ColdEntry :=
  match disk.file? location.path with
  | none => .error (coldIo "abrir lectura" (location.path.display s.root) notFound)
  | some bytes =>
    if location.offset + location.totalLen ≤ bytes.length then
      decodeValueRecord codec (slice bytes location.offset location.totalLen) expectedKey
    else
      .error (coldIo "leer segmento" (location.path.display s.root) "failed to fill whole buffer")

def readLocation (s : SegmentedColdStore) (disk : Disk) (expectedKey : String)
    (location : RecordLocation) : Except MemoryError ColdEntry × SegmentedColdStore :=
  if s.mmapReads then
    match s.mapSegment disk location.path with
    | (.error error, s) => (.error error, s)
    | (.ok mapped, s) =>
      if location.offset + location.totalLen ≤ mapped.length then
        (decodeValueRecord codec (slice mapped location.offset location.totalLen) expectedKey, s)
      else (s.readFile codec disk expectedKey location, s)
  else (s.readFile codec disk expectedKey location, s)

/-! ### The `ColdStore` interface -/

def get (s : SegmentedColdStore) (disk : Disk) (key : String) :
    Except MemoryError (Option ColdEntry) × SegmentedColdStore :=
  match Dict.get? s.index key with
  | none => (.ok none, s)
  | some location =>
    let read := s.readLocation codec disk key location
    (read.1.map some, read.2)

def put (s : SegmentedColdStore) (disk : Disk) (key : String) (entry : ColdEntry)
    (fault : Option Fault) : Except MemoryError Unit × SegmentedColdStore × Disk :=
  match (Dict.get? s.index key).filter fun existing => existing.className ≠ entry.className with
  | some existing =>
    (.error (.cold ("la clave '" ++ key ++ "' ya pertenece a la clase '" ++ existing.className ++
      "' y no puede moverse a '" ++ entry.className ++ "'")), s, disk)
  | none =>
    match s.appendRecord codec disk key entry.className (some entry.value) fault with
    | (.error error, s, disk) => (.error error, s, disk)
    | (.ok location, s, disk) =>
      (.ok (), { s with index := Dict.insert s.index key location }, disk)

def remove (s : SegmentedColdStore) (disk : Disk) (key : String) (fault : Option Fault) :
    Except MemoryError Bool × SegmentedColdStore × Disk :=
  match Dict.get? s.index key with
  | none => (.ok false, s, disk)
  | some existing =>
    match s.appendRecord codec disk key existing.className none fault with
    | (.error error, s, disk) => (.error error, s, disk)
    | (.ok _, s, disk) => (.ok true, { s with index := Dict.erase s.index key }, disk)

/-! ### Opening -/

end SegmentedColdStore

/-- `RebuiltIndex`, with the disk it leaves. -/
structure Rebuilt where
  index : Index
  disk : Disk
  bytesOnDisk : ℕ
  salvagedSegments : ℕ

namespace Rebuilt

/-- The end of a round of `rebuild_index`: what is behind the valid length is cut off. -/
def settle (acc : Rebuilt) (path : Path) (index : Index) (validLen : ℕ) : Rebuilt :=
  { acc with
    index
    disk :=
      if validLen < acc.disk.len path then
        acc.disk.write path (((acc.disk.file? path).getD []).take validLen)
      else acc.disk
    bytesOnDisk := acc.bytesOnDisk + validLen }

/-- `salvage_segment` and its count. -/
def salvage (acc : Rebuilt) (path : Path) : Rebuilt :=
  let bytes := (acc.disk.file? path).getD []
  let disk := acc.disk.write path (salvageFrom bytes 0 [])
  { acc with
    disk := { disk with quarantine := disk.quarantine ++ [(path, bytes)] }
    salvagedSegments := acc.salvagedSegments + 1 }

/-- One segment of `rebuild_index`. -/
def segment (root : String) (acc : Rebuilt) (path : Path) : Except MemoryError Unit × Rebuilt :=
  match scanSegment path ((acc.disk.file? path).getD []) acc.index with
  | (.ok validLen, index) => (.ok (), acc.settle path index validLen)
  | (.error (.fatal error), index) => (.error error, { acc with index })
  | (.error (.corrupt _), index) =>
    let acc := { acc with index }.salvage path
    match scanSegment path ((acc.disk.file? path).getD []) acc.index with
    | (.ok validLen, index) => (.ok (), acc.settle path index validLen)
    | (.error (.fatal error), index) => (.error error, { acc with index })
    | (.error (.corrupt reason), index) =>
      (.error (.cold ("segmento " ++ path.display root ++ " sigue dañado tras el rescate: " ++
        reason)), { acc with index })

/-- The segments one after another, up to the first error. -/
def segments (root : String) (acc : Rebuilt) : List Path → Except MemoryError Unit × Rebuilt
  | [] => (.ok (), acc)
  | path :: paths =>
    match acc.segment root path with
    | (.ok (), acc) => segments root acc paths
    | (.error error, acc) => (.error error, acc)

end Rebuilt

/-- The segments of every class directory, directory after directory. -/
def Disk.paths (disk : Disk) : List Path := disk.dirs.keys.flatMap disk.segmentFiles

def rebuildIndex (root : String) (disk : Disk) : Except MemoryError Unit × Rebuilt :=
  Rebuilt.segments root ⟨Dict.empty, disk, 0, 0⟩ disk.paths

/-- How the store is configured. -/
structure Options where
  segmentMaxBytes : ℕ
  mmapReads : Bool
  maxDiskBytes : Option ℕ

def openWithLimit (root : String) (options : Options) (disk : Disk) :
    Except MemoryError SegmentedColdStore × Disk :=
  match rebuildIndex root disk with
  | (.error error, rebuilt) => (.error error, rebuilt.disk)
  | (.ok (), rebuilt) =>
    (.ok
      { root
        segmentMaxBytes := max options.segmentMaxBytes 4096
        mmapReads := options.mmapReads
        index := rebuilt.index
        writers := Dict.empty
        maps := Dict.empty
        bytesOnDisk := rebuilt.bytesOnDisk
        maxDiskBytes := options.maxDiskBytes
        quotaRejections := 0
        salvagedSegments := rebuilt.salvagedSegments },
      rebuilt.disk)

end Jaiba.Memory.Cold
