import Jaiba.Lib.Machine
import Jaiba.Memory.Cold.Append

/-!
# The Cold store as a map

Runs of a store over its directory: reads, `put` and `remove`, which may fail
inside `append_record`, and reopening under any configuration. The calls that
returned `Ok` make the map the store stands for.
-/

namespace Jaiba.Memory.Cold
open Jaiba.Lib

/-! ### The map -/

/-- A call of `put` or `remove` that returned `Ok`. -/
inductive Op where
  | put (key className : String) (value : Value)
  | remove (key : String)

def Op.apply (map : String → Option ColdEntry) : Op → String → Option ColdEntry
  | .put key className value => Function.update map key (some ⟨className, value⟩)
  | .remove key => Function.update map key none

/-- What is stored after a sequence of calls. -/
def stored (log : List Op) : String → Option ColdEntry := log.foldl Op.apply fun _ => none

theorem stored_put (log : List Op) (key className : String) (value : Value) (k : String) :
    stored (log ++ [.put key className value]) k =
      if k = key then some ⟨className, value⟩ else stored log k := by
  rw [stored, List.foldl_append]
  exact Function.update_apply ..

theorem stored_remove (log : List Op) (key k : String) :
    stored (log ++ [.remove key]) k = if k = key then none else stored log k := by
  rw [stored, List.foldl_append]
  exact Function.update_apply ..

/-! ### Runs -/

/-- The directory, the store that has it open, and what was called. -/
structure System where
  disk : Disk
  store : Option SegmentedColdStore
  log : List Op

/-- A new directory. -/
def System.start : System := ⟨Disk.empty, none, []⟩

inductive Action where
  | get (key : String)
  | put (key : String) (entry : ColdEntry) (fault : Option Fault)
  | remove (key : String) (fault : Option Fault)
  | reopen (options : Options)

variable (codec : Codec) (root : String)

/-- The log after a call: what failed is not in it. -/
def logged {α : Type} (log : List Op) (op : Op) : Except MemoryError α → List Op
  | .ok _ => log ++ [op]
  | .error _ => log

/-- Runs of the store; a directory that cannot be opened stays closed. -/
def cold : Machine System Action where
  step t
    | .get key => t.store.map fun s => { t with store := some (s.get codec t.disk key).2 }
    | .put key entry fault => t.store.map fun s =>
      let out := s.put codec t.disk key entry fault
      ⟨out.2.2, some out.2.1, logged t.log (.put key entry.className entry.value) out.1⟩
    | .remove key fault => t.store.map fun s =>
      let out := s.remove codec t.disk key fault
      ⟨out.2.2, some out.2.1, logged t.log (.remove key) out.1⟩
    | .reopen options =>
      let out := openWithLimit root options t.disk
      some ⟨out.2, out.1.toOption, t.log⟩

/-- No stored key was ever put under a class whose directory sorts behind that
of the class it is stored under. -/
def Settled (log : List Op) : Prop :=
  ∀ key entry, stored log key = some entry → ∀ className value, .put key className value ∈ log →
    ¬ classDirectory codec entry.className < classDirectory codec className

/-! ### The invariant -/

/-- The index of a directory, its layout and the calls agree. -/
structure Held (classes : Set String) (L : Layout codec) (disk : Disk)
    (index : String → Option RecordLocation) (log : List Op) : Prop where
  describes : L.Describes classes disk
  live : L.Live classes disk index
  reads : ∀ key location, index key = some location → ∃ r v, L.At location r ∧ r.key = key ∧
    r.value = some v ∧ stored log key = some ⟨r.className, v⟩
  vacant : ∀ key, index key = none → stored log key = none
  past : ∀ c ∈ classes, ∀ key, (∃ e ∈ L.log disk (classDirectory codec c), e.key = key) ↔
    ∃ v, .put key c v ∈ log
  named : ∀ key c v, .put key c v ∈ log → c ∈ classes

variable {codec} {classes : Set String} {L : Layout codec} {disk : Disk}
  {index : String → Option RecordLocation} {log : List Op}

theorem Held.settled_iff (h : Held codec classes L disk index log) :
    Settled codec log ↔ L.Foremost classes disk index := by
  constructor
  · intro hs key location hl c hc hlt e he hek
    obtain ⟨r, v, hat, -, -, hstored⟩ := h.reads key location hl
    obtain ⟨v', hput⟩ := (h.past c hc key).mp ⟨e, he, hek⟩
    refine hs key _ hstored c v' hput ?_
    rw [← hat.className]
    exact hlt
  · intro hf key entry hstored c v hput hlt
    cases hl : index key with
    | none =>
      rw [h.vacant key hl] at hstored
      cases hstored
    | some location =>
      obtain ⟨r, v', hat, -, -, hstored'⟩ := h.reads key location hl
      rw [hstored'] at hstored
      cases Option.some.inj hstored
      have hc := h.named key c v hput
      obtain ⟨e, he, hek⟩ := (h.past c hc key).mpr ⟨v, hput⟩
      rw [← hat.className] at hlt
      exact hf key location hl c hc hlt e he hek

/-- What a call that adds no record leaves of the layout. -/
structure Kept (L : Layout codec) (disk : Disk) (L' : Layout codec) (disk' : Disk) : Prop where
  log : ∀ dir, L'.log disk' dir = L.log disk dir
  at_location : ∀ location r, L.At location r → L'.At location r

theorem Held.kept (h : Held codec classes L disk index log) {L' : Layout codec} {disk' : Disk}
    (hd : L'.Describes classes disk') (hk : Kept L disk L' disk') :
    Held codec classes L' disk' index log where
  describes := hd
  live := by
    refine ⟨fun c hc k => ?_, fun k v hkv => ?_, fun c hc k v hlast => ?_⟩
    · rw [hk.log]
      exact h.live.opens c hc k
    · rw [hk.log]
      exact h.live.live_last k v hkv
    · rw [hk.log] at hlast
      exact h.live.last_live c hc k v hlast
  reads := by
    intro key location hl
    obtain ⟨r, v, hat, hrest⟩ := h.reads key location hl
    exact ⟨r, v, hk.at_location location r hat, hrest⟩
  vacant := h.vacant
  past := by
    intro c hc key
    rw [hk.log]
    exact h.past c hc key
  named := h.named

/-- The call a record stands for. -/
def Record.op (r : Record codec) : Op :=
  match r.value with
  | some v => .put r.key r.className v
  | none => .remove r.key

theorem Record.stored_op (r : Record codec) (log : List Op) (k : String) :
    stored (log ++ [r.op]) k =
      if k = r.key then r.value.map fun v => ⟨r.className, v⟩ else stored log k := by
  rw [Record.op]
  cases hv : r.value with
  | some v => exact stored_put log r.key r.className v k
  | none => exact stored_remove log r.key k

theorem Record.put_mem_op (r : Record codec) {log : List Op} {k c : String} {v : Value} :
    .put k c v ∈ log ++ [r.op] ↔
      .put k c v ∈ log ∨ k = r.key ∧ c = r.className ∧ r.value = some v := by
  rw [List.mem_append, List.mem_singleton, Record.op]
  cases hv : r.value with
  | some x => simp [eq_comm]
  | none => simp

/-- A record at the end of its class, where the index of the store allows it. -/
theorem Held.push (h : Held codec classes L disk index log)
    (hinj : Set.InjOn (classDirectory codec) classes) {w : SegmentWriter} {r : Record codec}
    (hc : r.className ∈ classes) (hready : L.Ready disk r.className w) (htail : L.tail w.path = [])
    (hown : ∀ location, index r.key = some location → location.className = r.className)
    (htomb : r.value = none → index r.key ≠ none) :
    Held codec classes (L.push w.path r) (disk.append w.path r.bytes)
      (fun k => if k = r.key then (r.entry w.path (L.bytes w.path).length).value else index k)
      (log ++ [r.op]) where
  describes := h.describes.push htail hc hready.dir.symm
  live := h.live.push h.describes hinj hc hready.dir.symm hready.last hown htomb _
  reads := by
    intro key location hk
    split at hk
    next hkey =>
      obtain ⟨v, hv, rfl⟩ := Option.map_eq_some_iff.mp hk
      refine ⟨r, v, Layout.at_push L w.path r, hkey.symm, hv, ?_⟩
      rw [r.stored_op, if_pos hkey, hv]
      rfl
    next hkey =>
      obtain ⟨r', v, hat, hrkey, hv, hstored⟩ := h.reads key location hk
      refine ⟨r', v, hat.push w.path r, hrkey, hv, ?_⟩
      rw [r.stored_op, if_neg hkey, hstored]
  vacant := by
    intro key hk
    rw [r.stored_op]
    split at hk
    next hkey =>
      rw [if_pos hkey, Option.map_eq_none_iff.mp hk]
      rfl
    next hkey =>
      rw [if_neg hkey]
      exact h.vacant key hk
  past := by
    intro c hcc key
    have habsent : disk.file? w.path = none → L.records w.path = [] := fun hnone =>
      (h.describes.absent w.path hnone).1
    by_cases hcr : c = r.className
    · have hlog := Layout.log_push w.path hready.last habsent r
        ((disk.file? w.path).getD [] ++ r.bytes)
      rw [hcr, ← hready.dir, Disk.append, hlog, hready.dir]
      have hold := h.past r.className hc key
      constructor
      · rintro ⟨e, he, hek⟩
        rcases List.mem_append.mp he with he | he
        · obtain ⟨v, hput⟩ := hold.mp ⟨e, he, hek⟩
          exact ⟨v, r.put_mem_op.mpr (.inl hput)⟩
        · rw [List.mem_singleton.mp he] at hek
          have hkey : key = r.key := hek.symm
          cases hv : r.value with
          | some v => exact ⟨v, r.put_mem_op.mpr (.inr ⟨hkey, rfl, hv⟩)⟩
          | none =>
            -- the tombstone of a key that has a record already
            obtain ⟨location, hl⟩ := Option.ne_none_iff_exists'.mp (htomb hv)
            obtain ⟨e', he', hek', -⟩ := Replay.exists_of_last (h.live.live_last _ location hl).2
            rw [hown location hl] at he'
            obtain ⟨v, hput⟩ := hold.mp ⟨e', he', hek'.trans hkey.symm⟩
            exact ⟨v, r.put_mem_op.mpr (.inl hput)⟩
      · rintro ⟨v, hput⟩
        rcases r.put_mem_op.mp hput with hput | ⟨hkey, -, -⟩
        · obtain ⟨e, he, hek⟩ := hold.mpr ⟨v, hput⟩
          exact ⟨e, List.mem_append_left _ he, hek⟩
        · exact ⟨_, List.mem_append_right _ (List.mem_singleton_self _), hkey.symm⟩
    · have hne : classDirectory codec c ≠ w.path.dir := by
        rw [hready.dir]
        exact fun heq => hcr (hinj hcc hc heq)
      rw [Disk.append, Layout.log_push_of_ne hne, h.past c hcc key]
      refine exists_congr fun v => ?_
      rw [r.put_mem_op]
      exact ⟨.inl, fun hput => hput.resolve_right fun hnew => hcr hnew.2.1⟩
  named := by
    intro key c v hput
    rcases r.put_mem_op.mp hput with hput | ⟨-, rfl, -⟩
    · exact h.named key c v hput
    · exact hc

/-! ### Reads -/

/-- A key reads as what the bytes at its location decode to. -/
theorem SegmentedColdStore.get_location {s : SegmentedColdStore} {key : String}
    {location : RecordLocation} {bytes : Bytes} (hindex : Dict.get? s.index key = some location)
    (hfile : disk.file? location.path = some bytes)
    (hend : location.offset + location.totalLen ≤ bytes.length)
    (hmaps : ∀ path n, Dict.get? s.maps path = some n → n ≤ disk.len path) :
    (s.get codec disk key).1 =
      (decodeValueRecord codec (slice bytes location.offset location.totalLen) key).map some := by
  have hread : s.readFile codec disk key location =
      decodeValueRecord codec (slice bytes location.offset location.totalLen) key := by
    rw [SegmentedColdStore.readFile, hfile]
    exact if_pos hend
  have hmain : (s.readLocation codec disk key location).1 =
      decodeValueRecord codec (slice bytes location.offset location.totalLen) key := by
    rw [SegmentedColdStore.readLocation]
    split
    · rw [SegmentedColdStore.mapSegment]
      cases hm : Dict.get? s.maps location.path with
      | some n =>
        dsimp only
        have hn := hmaps _ n hm
        rw [Disk.len, hfile, Option.getD_some] at hn
        rw [hfile, Option.getD_some]
        split
        next hle =>
          rw [List.length_take, min_eq_left hn] at hle
          rw [slice_take hle]
        · exact hread
      | none =>
        rw [hfile]
        dsimp only
        rw [if_pos hend]
    · exact hread
  rw [SegmentedColdStore.get, hindex]
  dsimp only
  rw [hmain]

/-- A key whose location names its record reads as that record. -/
theorem Layout.Describes.get_at (h : L.Describes classes disk) (hcodec : codec.RoundTrips)
    {s : SegmentedColdStore} {location : RecordLocation} {r : Record codec} {v : Value}
    (hindex : Dict.get? s.index r.key = some location) (hat : L.At location r) (hv : r.value = some v)
    (hmaps : ∀ path n, Dict.get? s.maps path = some n → n ≤ disk.len path) :
    (s.get codec disk r.key).1 = .ok (some ⟨r.className, v⟩) := by
  obtain ⟨bytes, hfile, hend, hslice⟩ := h.slice_at hat
  rw [SegmentedColdStore.get_location hindex hfile hend hmaps, hslice, r.decode_bytes hcodec hv]
  rfl

/-- A key that is live reads as the entry it was stored with. -/
theorem Held.get_live (h : Held codec classes L disk index log) (hcodec : codec.RoundTrips)
    {s : SegmentedColdStore} (hindex : ∀ k, Dict.get? s.index k = index k)
    (hmaps : ∀ path n, Dict.get? s.maps path = some n → n ≤ disk.len path) (key : String) :
    (s.get codec disk key).1 = .ok (stored log key) := by
  cases hl : index key with
  | none => rw [SegmentedColdStore.get, hindex, hl, h.vacant key hl]
  | some location =>
    obtain ⟨r, v, hat, rfl, hv, hstored⟩ := h.reads key location hl
    rw [hstored]
    exact h.describes.get_at hcodec ((hindex r.key).trans hl) hat hv hmaps

/-! ### Calls -/

/-- An open store, its directory and the calls it answered with `Ok`. -/
structure Sound (classes : Set String) (L : Layout codec) (disk : Disk) (s : SegmentedColdStore)
    (index : String → Option RecordLocation) (log : List Op) : Prop where
  held : Held codec classes L disk index log
  writing : L.Writing classes disk s
  agrees : ∀ k, Dict.get? s.index k = index k

/-- A call of `append_record` that may write finds its writer in step with the
file, and one that fails leaves no complete record behind. -/
def AppendContained (codec : Codec) (s : SegmentedColdStore) (disk : Disk) (key c : String)
    (value : Option Value) (fault : Option Fault) : Prop :=
  ∀ r : Record codec, r.key = key → r.className = c → r.value = value →
    s.exceedsQuota value r.bytes.length = false →
      (Fault.mayWrite fault = true → (s.chooseWriter codec disk c r.bytes.length).size =
        disk.len (s.chooseWriter codec disk c r.bytes.length).path) ∧
      ∀ n error, fault = some (.torn n error) → findRecord (r.bytes.take n) 0 = none

variable {s : SegmentedColdStore}

theorem Held.ensureDir (h : Held codec classes L disk index log) (s : SegmentedColdStore) {c : String}
    (hc : c ∈ classes) : Held codec classes L (s.ensureDir codec disk c) index log := by
  refine h.kept (h.describes.ensureDir s hc) ⟨fun dir => ?_, fun _ _ hat => hat⟩
  rw [Layout.log, Layout.log, s.ensureDir_ids]

/-- What the store knows of the files once it has entered a segment. -/
theorem Layout.Writing.entered (h : L.Writing classes disk s)
    (hinj : Set.InjOn (classDirectory codec) classes) {c : String} (hc : c ∈ classes)
    {L' : Layout codec} {w w' : SegmentWriter} (hw : w.path.dir = classDirectory codec c)
    (bytes : Bytes) {d : Disk} (hd : d = s.ensureDir codec disk c ∨
      d = (s.ensureDir codec disk c).append w.path bytes)
    (hready : L'.Ready d c w') (hlayout : ∀ path : Path, path ≠ w.path →
      L'.bytes path = L.bytes path ∧ L'.tail path = L.tail path) {s' : SegmentedColdStore}
    (hwriters : ∀ c', Dict.get? s'.writers c' = if c' = c then some w' else Dict.get? s.writers c')
    (hmaps : s'.maps = Dict.erase s.maps w.path) : L'.Writing classes d s' := by
  refine h.next hinj hc hready (fun path hpath => hlayout path ?_) ?_ ?_ ?_ hwriters ?_
  · rintro rfl
    exact hpath hw
  · intro name hname
    rcases hd with rfl | rfl
    · exact s.ensureDir_ids disk c name
    · rw [Disk.append, Disk.write_ids_other _ _ _ (hw ▸ hname), s.ensureDir_ids]
  · intro name hname
    rcases hd with rfl | rfl
    · exact s.ensureDir_dirs hname
    · exact Disk.mem_write_dirs.mpr (.inr (s.ensureDir_dirs hname))
  · intro path
    rw [← s.ensureDir_len disk c path]
    rcases hd with rfl | rfl
    · exact le_rfl
    · exact Disk.append_len ..
  · intro path n hn
    rw [hmaps, Dict.get?_erase] at hn
    split at hn
    · cases hn
    · exact hn

theorem append_sound (h : Sound classes L disk s index log)
    (hinj : Set.InjOn (classDirectory codec) classes) {key c : String} (hc : c ∈ classes)
    {value : Option Value} {fault : Option Fault}
    (hown : ∀ location, index key = some location → location.className = c)
    (htomb : value = none → index key ≠ none)
    (hcond : AppendContained codec s disk key c value fault) :
    (∃ (e : MemoryError) (s' : SegmentedColdStore) (disk' : Disk) (L' : Layout codec),
      s.appendRecord codec disk key c value fault = (.error e, s', disk') ∧ s'.index = s.index ∧
      Sound classes L' disk' s' index log) ∨
    ∃ (r : Record codec) (w : SegmentWriter) (s' : SegmentedColdStore) (disk' : Disk),
      r.key = key ∧ r.className = c ∧ r.value = value ∧ s'.index = s.index ∧
      s.appendRecord codec disk key c value fault =
        (.ok ⟨w.path, (L.bytes w.path).length, r.bytes.length, c⟩, s', disk') ∧
      (L.push w.path r).Writing classes disk' s' ∧
      Held codec classes (L.push w.path r) disk'
        (fun k => if k = r.key then (r.entry w.path (L.bytes w.path).length).value else index k)
        (log ++ [r.op]) := by
  rcases s.appendRecord_cases disk key c value fault with ⟨e, q, hout⟩ | ⟨r, hkey, hclass, hvalue,
    hquota, hout⟩
  · exact .inl ⟨e, _, disk, L, hout, rfl, h.held, ⟨h.writing.known, h.writing.unknown, h.writing.maps⟩,
      h.agrees⟩
  obtain ⟨hstep, hincomplete⟩ := hcond r hkey hclass hvalue hquota
  have hready := h.writing.ready h.held.describes hc r.bytes.length
  have hensured := h.held.ensureDir s hc
  rw [hout]
  generalize hw : s.chooseWriter codec disk c r.bytes.length = w at hstep hready
  have hdir := hready.dir
  have hentered {w' : SegmentWriter} (c' : String) :
      Dict.get? (Dict.insert (Dict.insert s.writers c w) c w') c' =
        if c' = c then some w' else Dict.get? s.writers c' := by
    rw [Dict.get?_insert, Dict.get?_insert]
    split <;> rfl
  have hone (c' : String) : Dict.get? (s.enter c w).writers c' =
      if c' = c then some w else Dict.get? s.writers c' := Dict.get?_insert ..
  have htail : Fault.mayWrite fault = true → L.tail w.path = [] := by
    intro hmay
    have hlen := hstep hmay
    rw [hready.size] at hlen
    exact h.held.describes.tail_nil hlen
  rcases s.appendBytes_cases disk c r.bytes fault hw rfl with ⟨e, hb⟩ | ⟨e, hb⟩ |
    ⟨e, n, text, hfault, hb⟩ | ⟨hmay, hb⟩
  · exact .inl ⟨e, s, disk, L, hb, rfl, h⟩
  · refine .inl ⟨e, _, _, L, hb, rfl, hensured, ?_, h.agrees⟩
    exact h.writing.entered hinj hc hdir [] (.inl rfl) hready (fun _ _ => ⟨rfl, rfl⟩) hone rfl
  · cases n with
    | zero =>
      -- nothing was written, but the file may be new
      rw [List.take_zero] at hb
      have hlast := hready.append []
      have habsent : (s.ensureDir codec disk c).file? w.path = none → L.records w.path = [] :=
        fun hnone => (hensured.describes.absent w.path hnone).1
      refine .inl ⟨e, _, _, L, hb, rfl, hensured.kept (hensured.describes.append_nil hready.made)
        ⟨fun dir => Layout.log_write w.path hready.last habsent _ dir, fun _ _ hat => hat⟩, ?_,
        h.agrees⟩
      exact h.writing.entered hinj hc hdir [] (.inr rfl) ⟨hdir, hlast.1, hlast.2, hready.size⟩
        (fun _ _ => ⟨rfl, rfl⟩) hone rfl
    | succ n =>
      have htail := htail (by rw [hfault]; rfl)
      have htorn : Torn codec (r.bytes.take (n + 1)) :=
        ⟨.inr ⟨r, n + 1, rfl⟩, hincomplete (n + 1) text hfault⟩
      have habsent : (s.ensureDir codec disk c).file? w.path = none → L.records w.path = [] :=
        fun hnone => (hensured.describes.absent w.path hnone).1
      refine .inl ⟨e, _, _, L.leave w.path (r.bytes.take (n + 1)), hb, rfl,
        hensured.kept (hensured.describes.leave htail htorn hready.made)
          ⟨fun dir => Layout.log_write w.path hready.last habsent _ dir, fun _ _ hat => ?_⟩, ?_,
        h.agrees⟩
      · exact ⟨hat.records, hat.totalLen, hat.className⟩
      · exact h.writing.entered hinj hc hdir _ (.inr rfl) (hready.leave _ _)
          (fun path hpath => ⟨rfl, Layout.tail_leave_of_ne hpath _⟩) hone rfl
  · subst hclass
    refine .inr ⟨r, w, _, _, hkey, rfl, hvalue, ?_, hready.size ▸ hb, ?_, ?_⟩
    · rfl
    · refine h.writing.entered hinj hc hdir _ (.inr rfl) (hready.push r) (fun path hpath => ?_)
        (fun c' => hentered c') rfl
      exact ⟨by rw [Layout.bytes, Layout.records_push_of_ne hpath, Layout.bytes], rfl⟩
    · exact hensured.push hinj hc hready (htail hmay) (hkey ▸ hown) (hkey ▸ hvalue ▸ htomb)

theorem get_sound (h : Sound classes L disk s index log) (key : String) :
    Sound classes L disk (s.get codec disk key).2 index log := by
  have hmap (path : Path) : Sound classes L disk (s.mapSegment disk path).2 index log := by
    rw [SegmentedColdStore.mapSegment]
    split
    · exact h
    · split
      · exact h
      next bytes hb =>
        refine ⟨h.held, ⟨h.writing.known, h.writing.unknown, fun p n hn => ?_⟩, h.agrees⟩
        dsimp only at hn
        rw [Dict.get?_insert] at hn
        split at hn
        next hp =>
          rw [hp, Disk.len, hb, Option.getD_some]
          exact (Option.some.inj hn).ge
        · exact h.writing.maps p n hn
  rw [SegmentedColdStore.get]
  split
  · exact h
  next location _ =>
    dsimp only
    rw [SegmentedColdStore.readLocation]
    split
    · have hmapped := hmap location.path
      split
      next heq =>
        rw [heq] at hmapped
        exact hmapped
      next heq =>
        rw [heq] at hmapped
        split
        · exact hmapped
        · exact hmapped
    · exact h

/-- A `put`: it keeps the invariant, and one that answers `Ok` leaves no tail. -/
theorem put_sound (h : Sound classes L disk s index log)
    (hinj : Set.InjOn (classDirectory codec) classes) {key : String} {entry : ColdEntry}
    (hc : entry.className ∈ classes) {fault : Option Fault}
    (hcond : AppendContained codec s disk key entry.className (some entry.value) fault) :
    ∃ (L' : Layout codec) (index' : String → Option RecordLocation), Sound classes L' (s.put codec disk key entry fault).2.2
        (s.put codec disk key entry fault).2.1 index'
        (logged log (.put key entry.className entry.value) (s.put codec disk key entry fault).1) ∧
      (∀ u, (s.put codec disk key entry fault).1 = .ok u → L'.tail = L.tail) := by
  rw [SegmentedColdStore.put]
  split
  · exact ⟨L, index, h, fun _ hu => by cases hu⟩
  next hfilter =>
    have hown : ∀ location, index key = some location → location.className = entry.className := by
      intro location hl
      rw [h.agrees, hl, Option.filter_some] at hfilter
      by_contra hne
      rw [if_pos (decide_eq_true hne)] at hfilter
      cases hfilter
    rcases append_sound h hinj hc hown (fun hnone => by cases hnone) hcond with
      ⟨e, s', disk', L', hout, -, hsound⟩ | ⟨r, w, s', disk', hkey, hclass, hvalue, hindex, hout,
        hwriting, hheld⟩
    · rw [hout]
      exact ⟨L', index, hsound, fun _ hu => by cases hu⟩
    · rw [hout]
      have hop : r.op = .put key entry.className entry.value := by
        rw [Record.op, hvalue, hkey, hclass]
      refine ⟨_, _, ⟨hop ▸ hheld, ⟨hwriting.known, hwriting.unknown, hwriting.maps⟩, fun k => ?_⟩,
        fun _ _ => rfl⟩
      dsimp only
      rw [Dict.get?_insert, hindex, h.agrees, hkey, Record.entry, hvalue, hclass]
      rfl

theorem remove_sound (h : Sound classes L disk s index log)
    (hinj : Set.InjOn (classDirectory codec) classes) {key : String} {fault : Option Fault}
    (hcond : ∀ location, Dict.get? s.index key = some location →
      AppendContained codec s disk key location.className none fault) :
    ∃ (L' : Layout codec) (index' : String → Option RecordLocation), Sound classes L' (s.remove codec disk key fault).2.2
        (s.remove codec disk key fault).2.1 index'
        (logged log (.remove key) (s.remove codec disk key fault).1) ∧
      (∀ u, (s.remove codec disk key fault).1 = .ok u → L'.tail = L.tail) := by
  rw [SegmentedColdStore.remove]
  cases hl : Dict.get? s.index key with
  | none =>
    refine ⟨L, index, ⟨?_, h.writing, h.agrees⟩, fun _ _ => rfl⟩
    have hnone := h.held.vacant key ((h.agrees key).symm.trans hl)
    have hsame : stored (log ++ [.remove key]) = stored log := by
      funext k
      rw [stored_remove]
      split
      next hk => rw [hk, hnone]
      · rfl
    have hputs {k c : String} {v : Value} :
        Op.put k c v ∈ log ++ [.remove key] ↔ Op.put k c v ∈ log := by
      rw [List.mem_append, List.mem_singleton]
      exact ⟨fun hin => hin.resolve_right (fun heq => by cases heq), .inl⟩
    refine ⟨h.held.describes, h.held.live, ?_, ?_, fun c hc k => ?_, fun k c v hin => ?_⟩
    · rw [logged, hsame]
      exact h.held.reads
    · rw [logged, hsame]
      exact h.held.vacant
    · rw [h.held.past c hc k]
      exact exists_congr fun v => hputs.symm
    · exact h.held.named k c v (hputs.mp hin)
  | some existing =>
    have hlive : index key = some existing := (h.agrees key).symm.trans hl
    have hc := (h.held.live.live_last key existing hlive).1
    have hown : ∀ location, index key = some location → location.className = existing.className := by
      intro location hloc
      rw [hlive] at hloc
      rw [← Option.some.inj hloc]
    have htomb : (none : Option Value) = none → index key ≠ none := by
      intro _ hnone
      rw [hlive] at hnone
      cases hnone
    dsimp only
    rcases append_sound h hinj hc hown htomb (hcond existing hl) with
      ⟨e, s', disk', L', hout, -, hsound⟩ | ⟨r, w, s', disk', hkey, hclass, hvalue, hindex, hout,
        hwriting, hheld⟩
    · rw [hout]
      exact ⟨L', index, hsound, fun _ hu => by cases hu⟩
    · rw [hout]
      have hop : r.op = .remove key := by rw [Record.op, hvalue, hkey]
      refine ⟨_, _, ⟨hop ▸ hheld, ⟨hwriting.known, hwriting.unknown, hwriting.maps⟩, fun k => ?_⟩,
        fun _ _ => rfl⟩
      dsimp only
      rw [Dict.get?_erase, hindex, h.agrees, hkey, Record.entry, hvalue]
      rfl

/-! ### Reopening -/

theorem reopen_sound (h : Held codec classes L disk index log)
    (hinj : Set.InjOn (classDirectory codec) classes) (hsettled : Settled codec log)
    (options : Options) : ∃ s after, openWithLimit root options disk = (.ok s, after) ∧
      Sound classes L.cut after s index log := by
  obtain ⟨acc, hacc, hindex, hcut⟩ :=
    h.describes.covers.rebuild h.live hinj (h.settled_iff.mp hsettled) root
  have hlog (dir : String) := Layout.cut_log hcut dir
  have hheld : Held codec classes L.cut acc.disk index log := by
    refine h.kept (h.describes.covers.cut hcut) ⟨hlog, fun _ _ hat => ?_⟩
    exact ⟨hat.records, hat.totalLen, hat.className⟩
  rw [openWithLimit, hacc]
  refine ⟨_, _, rfl, hheld, ⟨fun c w hw => ?_, fun _ _ _ _ _ => rfl, fun path n hn => ?_⟩, hindex⟩
  · rw [Dict.get?_empty] at hw
    cases hw
  · rw [Dict.get?_empty] at hn
    cases hn

theorem settled_of_reopen (h : Held codec classes L disk index log)
    (hinj : Set.InjOn (classDirectory codec) classes) {options : Options}
    (hok : ∃ s, (openWithLimit root options disk).1 = .ok s) : Settled codec log := by
  obtain ⟨s, hok⟩ := hok
  rw [openWithLimit] at hok
  split at hok
  · cases hok
  next rebuilt hr => exact h.settled_iff.mpr (h.describes.covers.foremost_of_rebuild h.live hinj hr)

/-! ### Runs -/

/-- What every run keeps; `clean` says that no failed append has left bytes. -/
def Consistent (codec : Codec) (classes : Set String) (clean : Prop) (t : System) : Prop :=
  ∃ (L : Layout codec) (index : String → Option RecordLocation),
    Held codec classes L t.disk index t.log ∧ (clean → ∀ path, L.tail path = []) ∧
      ∀ s, t.store = some s → Sound classes L t.disk s index t.log

/-- The appends of a call are contained and a reopened directory is settled. -/
def Contained (codec : Codec) (classes : Set String) (t : System) : Action → Prop
  | .get _ => True
  | .put key entry fault => entry.className ∈ classes ∧ ∀ s, t.store = some s →
      AppendContained codec s t.disk key entry.className (some entry.value) fault
  | .remove key fault => ∀ s, t.store = some s → ∀ location, Dict.get? s.index key = some location →
      AppendContained codec s t.disk key location.className none fault
  | .reopen _ => Settled codec t.log

/-- The call answers `Ok`. -/
def Succeeds (codec : Codec) (t : System) : Action → Prop
  | .put key entry fault => ∀ s, t.store = some s → ∃ u, (s.put codec t.disk key entry fault).1 = .ok u
  | .remove key fault => ∀ s, t.store = some s → ∃ b, (s.remove codec t.disk key fault).1 = .ok b
  | _ => True

theorem start_consistent (classes : Set String) (clean : Prop) :
    Consistent codec classes clean System.start := by
  have hids (name : String) : Disk.empty.ids name = [] := rfl
  have hlog (dir : String) : Layout.log (⟨fun _ => [], fun _ => []⟩ : Layout codec) Disk.empty dir = [] := rfl
  refine ⟨⟨fun _ => [], fun _ => []⟩, fun _ => none, ⟨?_, ?_, ?_, fun _ _ => rfl, ?_, ?_⟩,
    fun _ _ => rfl, ?_⟩
  · refine ⟨?_, fun _ _ => ⟨rfl, rfl⟩, fun _ => .nil, ?_, ?_⟩
    · intro path bytes hb
      cases hb
    · intro path r hr
      cases hr
    · intro name hn
      cases hn
  · refine ⟨fun c _ k hk => ?_, fun k v hk => ?_, fun c _ k v hk => ?_⟩ <;> cases hk
  · intro key location hk
    cases hk
  · intro c _ key
    constructor
    · rintro ⟨e, he, -⟩
      cases he
    · rintro ⟨v, hv⟩
      cases hv
  · intro key c v hv
    cases hv
  · intro s hs
    cases hs

/-- One step of a run. -/
theorem step_consistent {clean : Prop} {t t' : System} {a : Action}
    (hinj : Set.InjOn (classDirectory codec) classes) (h : Consistent codec classes clean t)
    (hcond : Contained codec classes t a) (hclean : clean → Succeeds codec t a)
    (hstep : (cold codec root).step t a = some t') : Consistent codec classes clean t' := by
  obtain ⟨L, index, hheld, htails, hopen⟩ := h
  cases a with
  | get key =>
    obtain ⟨s, hs, rfl⟩ := Option.map_eq_some_iff.mp hstep
    refine ⟨L, index, hheld, htails, fun s' hs' => ?_⟩
    rw [← Option.some.inj hs']
    exact get_sound (hopen s hs) key
  | put key entry fault =>
    obtain ⟨s, hs, rfl⟩ := Option.map_eq_some_iff.mp hstep
    obtain ⟨L', index', hsound, hkeep⟩ := put_sound (hopen s hs) hinj hcond.1 (hcond.2 s hs)
    refine ⟨L', index', hsound.held, fun hc path => ?_, fun s' hs' => ?_⟩
    · obtain ⟨u, hu⟩ := hclean hc s hs
      rw [hkeep u hu]
      exact htails hc path
    · rw [← Option.some.inj hs']
      exact hsound
  | remove key fault =>
    obtain ⟨s, hs, rfl⟩ := Option.map_eq_some_iff.mp hstep
    obtain ⟨L', index', hsound, hkeep⟩ := remove_sound (hopen s hs) hinj (hcond s hs)
    refine ⟨L', index', hsound.held, fun hc path => ?_, fun s' hs' => ?_⟩
    · obtain ⟨u, hu⟩ := hclean hc s hs
      rw [hkeep u hu]
      exact htails hc path
    · rw [← Option.some.inj hs']
      exact hsound
  | reopen options =>
    obtain ⟨s, after, hout, hsound⟩ := reopen_sound root hheld hinj hcond options
    have ht := Option.some.inj hstep
    rw [hout] at ht
    subst ht
    refine ⟨L.cut, index, hsound.held, fun _ _ => rfl, fun s' hs' => ?_⟩
    rw [← Option.some.inj hs']
    exact hsound

/-- Where nothing was left behind, an append that answers `Ok` is contained. -/
theorem contained_of_ok (h : Sound classes L disk s index log) (htails : ∀ path, L.tail path = [])
    {key c : String} (hc : c ∈ classes) {value : Option Value} {fault : Option Fault}
    (hfault : ∀ n text, fault ≠ some (.torn n text)) :
    AppendContained codec s disk key c value fault := by
  intro r _ _ _ _
  refine ⟨fun _ => ?_, fun n text hf => (hfault n text hf).elim⟩
  have hready := h.writing.ready h.held.describes hc r.bytes.length
  rw [hready.size, h.held.describes.len, htails, List.length_nil, Nat.add_zero]

end Jaiba.Memory.Cold
