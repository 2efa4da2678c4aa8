import Mathlib.Data.List.Induction
import Jaiba.Memory.Frozen

/-!
# What the Frozen store keeps

The history of a directory is what the calls of all processes have renamed and
unlinked in it. A read gives the last entry of its key in the history, whatever
failed or was cut off on the way; a loss of power takes the history back to an
earlier point.
-/

namespace Jaiba.Memory.Frozen
open Jaiba.Lib

variable {codec : Codec} {root : String}

/-! ### Names -/

theorem hexValue_hexDigit_lt : ∀ n, n < 16 → Json.hexValue (Json.hexDigit n) = n := by decide

theorem hexDigit_injective {m n : ℕ} (hm : m < 16) (hn : n < 16) (h : Json.hexDigit m = Json.hexDigit n) : m = n := by
  rw [← hexValue_hexDigit_lt m hm, h, hexValue_hexDigit_lt n hn]

theorem hexChars_cons (b : UInt8) (bs : Bytes) :
    hexChars (b :: bs) = Json.hexDigit (b.toNat / 16) :: Json.hexDigit (b.toNat % 16) :: hexChars bs := rfl

theorem hexChars_injective : ∀ {bs cs : Bytes}, hexChars bs = hexChars cs → bs = cs
  | [], [], _ => rfl
  | b :: bs, c :: cs, h => by
    rw [hexChars_cons, hexChars_cons, List.cons.injEq, List.cons.injEq] at h
    obtain ⟨hhigh, hlow, hrest⟩ := h
    have hb := b.toNat_lt
    have hc := c.toNat_lt
    have hdiv := hexDigit_injective (by omega) (by omega) hhigh
    have hmod := hexDigit_injective (by omega) (by omega) hlow
    have hbyte : b = c := UInt8.toNat_inj.mp (by omega)
    rw [hbyte, hexChars_injective hrest]

theorem length_hexChars (bs : Bytes) : (hexChars bs).length = 2 * bs.length := by
  induction bs with
  | nil => rfl
  | cons b bs ih =>
    rw [hexChars_cons, List.length_cons, List.length_cons, ih, List.length_cons]
    omega

theorem length_hex (codec : Codec) (key : String) : (hex codec key).toList.length = 64 := by
  rw [hex, String.toList_ofList, length_hexChars, codec.digest_length]

theorem hex_injective {k k' : String} (h : hex codec k = hex codec k') :
    codec.digest (utf8 k) = codec.digest (utf8 k') :=
  hexChars_injective (String.ofList_injective h)

/-- The file of a key is that of every key with its digest, and of no other. -/
theorem fileName_inj {k k' : String} :
    fileName codec k = fileName codec k' ↔ codec.digest (utf8 k) = codec.digest (utf8 k') := by
  refine ⟨fun h => ?_, fun h => by rw [fileName, hex, h, fileName, hex]⟩
  have hlist := congrArg String.toList h
  rw [fileName, fileName, String.toList_append, String.toList_append] at hlist
  exact hex_injective (String.toList_injective (List.append_cancel_right hlist))

/-- The names of the objects. -/
def IsObject (codec : Codec) (name : String) : Prop := ∃ key, name = fileName codec key

theorem tempName_ne_fileName (codec : Codec) (pid : ℕ) (key k : String) : tempName codec pid key ≠ fileName codec k := by
  intro h
  have hlen := congrArg (List.length ∘ String.toList) h
  have hdot : ".json.tmp-".toList.length = 10 := rfl
  have hjson : ".json".toList.length = 5 := rfl
  simp only [Function.comp, tempName, fileName, String.toList_append, List.length_append, length_hex] at hlen
  omega

theorem not_isObject_tempName (codec : Codec) (pid : ℕ) (key : String) : ¬ IsObject codec (tempName codec pid key) :=
  fun ⟨k, hk⟩ => tempName_ne_fileName codec pid key k hk

/-- Processes write to files of their own. -/
theorem tempName_pid {pid pid' : ℕ} {key key' : String} (h : tempName codec pid key = tempName codec pid' key') :
    pid = pid' := by
  have hlist := congrArg String.toList h
  simp only [tempName, String.toList_append] at hlist
  have hrest := (List.append_inj hlist (by rw [length_hex, length_hex])).2
  exact nat_repr_injective (String.toList_injective (List.append_cancel_left hrest))

/-! ### The history -/

inductive Op where
  | put (file : FrozenFile)
  | remove (key : String)

def Op.key : Op → String
  | .put file => file.key
  | .remove key => key

def Op.file? : Op → Option FrozenFile
  | .put file => some file
  | .remove _ => none

/-- What the history says last of the digest of a key. -/
def latestFile (codec : Codec) (ops : List Op) (key : String) : Option FrozenFile :=
  ops.foldl (fun found op => if codec.digest (utf8 op.key) = codec.digest (utf8 key) then op.file? else found) none

def latest (codec : Codec) (ops : List Op) (key : String) : Option FrozenEntry :=
  (latestFile codec ops key).map FrozenFile.entry

/-- What a call of the file system adds to the history. -/
def FileFrozenStore.commits (codec : Codec) (v : Volume String) (pid : ℕ) (s : FileFrozenStore) : Io → List Op
  | .error _ _ => []
  | .ok =>
    match s.stage with
    | .replacing draft =>
      match v.rename (tempName codec pid draft.file.key) (fileName codec draft.file.key) with
      | some _ => [.put draft.file]
      | none => []
    | .unlinking key =>
      match v.unlink (fileName codec key) with
      | some _ => [.remove key]
      | none => []
    | _ => []

def committed (codec : Codec) (s : State) : Action → List Op
  | .advance pid io =>
    match Dict.get? s.stores pid with
    | some store => store.commits codec s.volume pid io
    | none => []
  | _ => []

def Action.isPowerLoss : Action → Bool
  | .losePower _ _ => true
  | _ => false

/-- The histories of a run; after a loss of power a part from the start is left. -/
inductive History (codec : Codec) (root : String) : State → List Op → Prop where
  | start : History codec root .start []
  | step {s t : State} {a : Action} {ops : List Op} : History codec root s ops → a.isPowerLoss = false →
      step codec root s a = some t → History codec root t (ops ++ committed codec s a)
  | losePower {s t : State} {back n : ℕ} {remains : ℕ → Bytes} {ops : List Op} : History codec root s ops →
      step codec root s (.losePower back remains) = some t → n ≤ ops.length → History codec root t (ops.take n)

/-! ### The files of the history -/

def textOf (codec : Codec) (file : FrozenFile) : String :=
  match codec.toText file with
  | .ok text => text
  | .error _ => ""

def Op.entry (codec : Codec) (op : Op) : LogEntry String Bytes :=
  ⟨fileName codec op.key, op.file?.map fun file => utf8 (textOf codec file)⟩

theorem latestFile_concat (codec : Codec) (ops : List Op) (op : Op) (key : String) :
    latestFile codec (ops ++ [op]) key =
      if codec.digest (utf8 op.key) = codec.digest (utf8 key) then op.file? else latestFile codec ops key := by
  rw [latestFile, List.foldl_append]
  rfl

theorem latestFile_mem {ops : List Op} {key : String} {file : FrozenFile} (h : latestFile codec ops key = some file) :
    Op.put file ∈ ops ∧ codec.digest (utf8 file.key) = codec.digest (utf8 key) := by
  induction ops using List.reverseRecOn with
  | nil => cases h
  | append_singleton ops op ih =>
    rw [latestFile_concat] at h
    split at h
    next hop =>
      cases op with
      | remove key => cases h
      | put other =>
        cases Option.some.inj h
        exact ⟨List.mem_append_right _ List.mem_cons_self, hop⟩
    next => exact ⟨List.mem_append_left _ (ih h).1, (ih h).2⟩

theorem last_entries (codec : Codec) (ops : List Op) (key : String) :
    (Replay.last (ops.map (Op.entry codec)) (fileName codec key)).join =
      (latestFile codec ops key).map fun file => utf8 (textOf codec file) := by
  induction ops using List.reverseRecOn with
  | nil => rfl
  | append_singleton ops op ih =>
    rw [List.map_append, List.map_singleton, Replay.last_append, Replay.last, Replay.last, Option.none_or,
      latestFile_concat]
    have hname : (Op.entry codec op).key = fileName codec op.key := rfl
    simp only [hname, fileName_inj]
    split
    · rfl
    · rw [Option.none_or]
      exact ih

/-! ### What a step of a call leaves -/

/-- The file of the draft holds its text, and from `replacing` on the disk has it. -/
def Stage.Sound (codec : Codec) (v : Volume String) (pid : ℕ) : Stage → Prop
  | .writing draft => codec.toText draft.file = .ok draft.text
  | .opening draft | .syncing draft => codec.toText draft.file = .ok draft.text ∧
      ∃ f, v.inode? (tempName codec pid draft.file.key) = some f ∧ f.bytes = utf8 draft.text
  | .replacing draft => codec.toText draft.file = .ok draft.text ∧
      ∃ f, v.inode? (tempName codec pid draft.file.key) = some f ∧ f.bytes = utf8 draft.text ∧ f.synced = true
  | _ => True

theorem Stage.Sound.frame {v w : Volume String} {pid : ℕ} {stage : Stage} (h : stage.Sound codec v pid)
    (hsame : ∀ key, w.inode? (tempName codec pid key) = v.inode? (tempName codec pid key)) :
    stage.Sound codec w pid := by
  cases stage with
  | writing draft => exact h
  | opening draft | syncing draft =>
    obtain ⟨htext, f, hf, hbytes⟩ := h
    exact ⟨htext, f, (hsame _).trans hf, hbytes⟩
  | replacing draft =>
    obtain ⟨htext, f, hf, hbytes, hsynced⟩ := h
    exact ⟨htext, f, (hsame _).trans hf, hbytes, hsynced⟩
  | idle | storing | removing | unlinking | fetching | reading | returned => trivial

/-- The directory has the files of the history, and may come back with those of an earlier one. -/
structure Kept (codec : Codec) (v : Volume String) (ops : List Op) : Prop
    extends Volume.Archive (IsObject codec) v (ops.map (Op.entry codec)) where
  texts : ∀ file, Op.put file ∈ ops → ∃ text, codec.toText file = .ok text

/-- What a process that gets an answer may rely on, where `ops` is the history before the step and
`more` what the step adds. -/
def Answer.Truthful (codec : Codec) (ops more : List Op) (io : Io) (stage : Stage) : Answer → Prop
  | .stored => ∃ draft, stage = .replacing draft ∧ more = [.put draft.file]
  | .removed true => ∃ key, stage = .unlinking key ∧ more = [.remove key] ∧ latest codec ops key ≠ none
  | .removed false => ∃ key, stage = .removing key ∧ (io = .ok → latest codec ops key = none)
  | .found (some entry) => ∃ key, stage = .reading key ∧ latest codec ops key = some entry
  | .found none => ∃ key, stage = .fetching key ∧ (io = .ok → latest codec ops key = none)
  | .failed _ => more = []

structure Advanced (codec : Codec) (v : Volume String) (pid : ℕ) (io : Io) (stage : Stage) (ops : List Op)
    (w : Volume String) (after : FileFrozenStore) (more : List Op) : Prop where
  kept : Kept codec w (ops ++ more)
  others : ∀ pid', pid' ≠ pid → ∀ key, w.inode? (tempName codec pid' key) = v.inode? (tempName codec pid' key)
  own : after.stage.Sound codec w pid
  truthful : codec.RoundTrips → ∀ answer, after.stage = .returned answer → answer.Truthful codec ops more io stage

section
variable {v w : Volume String} {pid objects : ℕ} {io : Io} {stage next : Stage} {ops more : List Op} {key : String}

/-- A step that has no answer yet. -/
theorem Advanced.on (hmore : more = []) (hkept : Kept codec w ops)
    (hothers : ∀ pid', pid' ≠ pid → ∀ key, w.inode? (tempName codec pid' key) = v.inode? (tempName codec pid' key))
    (hown : next.Sound codec w pid) (hnext : ∀ answer, next ≠ .returned answer) :
    Advanced codec v pid io stage ops w ⟨objects, next⟩ more := by
  subst hmore
  exact ⟨(List.append_nil ops).symm ▸ hkept, hothers, hown, fun _ answer h => absurd h (hnext answer)⟩

/-- An answer that leaves the history alone. -/
theorem Advanced.answers {answer : Answer} (hmore : more = []) (hkept : Kept codec w ops)
    (hothers : ∀ pid', pid' ≠ pid → ∀ key, w.inode? (tempName codec pid' key) = v.inode? (tempName codec pid' key))
    (htruthful : codec.RoundTrips → answer.Truthful codec ops more io stage) :
    Advanced codec v pid io stage ops w ⟨objects, .returned answer⟩ more := by
  refine ⟨?_, hothers, trivial, fun hcodec answer' h => ?_⟩
  · rw [hmore, List.append_nil]
    exact hkept
  · cases h
    exact htruthful hcodec

theorem Kept.write (h : Kept codec v ops) (pid : ℕ) (key : String) (bytes : Bytes) :
    Kept codec (v.write (tempName codec pid key) bytes) ops :=
  ⟨h.toArchive.write (not_isObject_tempName codec pid key) bytes, h.texts⟩

theorem Kept.write_others (h : Kept codec v ops) (key : String) (bytes : Bytes) (pid' : ℕ) (hpid : pid' ≠ pid)
    (key' : String) : (v.write (tempName codec pid key) bytes).inode? (tempName codec pid' key') =
      v.inode? (tempName codec pid' key') :=
  h.toSound.inode?_write_ne (fun heq => hpid (tempName_pid heq)) bytes

/-- Renaming the draft is an entry of the history. -/
theorem Kept.rename (h : Kept codec v ops) {draft : Draft} (hsound : (Stage.replacing draft).Sound codec v pid)
    (hw : v.rename (tempName codec pid draft.file.key) (fileName codec draft.file.key) = some w) :
    Kept codec w (ops ++ [.put draft.file]) := by
  obtain ⟨htext, f, hf, hbytes, hsynced⟩ := hsound
  have hnew := h.toArchive.rename (not_isObject_tempName codec pid _) ⟨_, rfl⟩ hf hsynced hw
  have hentry : Op.entry codec (.put draft.file) = ⟨fileName codec draft.file.key, some f.bytes⟩ := by
    rw [Op.entry, Op.file?, Option.map_some, textOf, htext, hbytes]
    rfl
  rw [← hentry, ← List.map_singleton, ← List.map_append] at hnew
  refine ⟨hnew, fun file hfile => ?_⟩
  rcases List.mem_append.mp hfile with hold | hlast
  · exact h.texts file hold
  · cases List.mem_singleton.mp hlast
    exact ⟨_, htext⟩

theorem Kept.unlink (h : Kept codec v ops) (hw : v.unlink (fileName codec key) = some w) :
    Kept codec w (ops ++ [.remove key]) := by
  have hnew := h.toArchive.unlink hw
  refine ⟨?_, fun file hfile => ?_⟩
  · rw [List.map_append]
    exact hnew
  · rcases List.mem_append.mp hfile with hold | hlast
    · exact h.texts file hold
    · cases List.mem_singleton.mp hlast

theorem Kept.absent (h : Kept codec v ops) : v.inode? (fileName codec key) = none ↔ latest codec ops key = none := by
  rw [latest, Option.map_eq_none_iff, ← Option.map_eq_none_iff (f := Inode.bytes), h.entry ⟨key, rfl⟩, last_entries,
    Option.map_eq_none_iff]

theorem Kept.absent_of_exists (h : Kept codec v ops) (hexists : ¬ pathExists v (fileName codec key) io = true) :
    io = .ok → latest codec ops key = none := by
  rintro rfl
  rw [pathExists, Option.isSome_iff_ne_none, not_not] at hexists
  exact h.absent.mp hexists

/-- The file of an object is read as the entry that was put last. -/
theorem Kept.decode (h : Kept codec v ops) (hcodec : codec.RoundTrips) (root : String) {f : Inode}
    (hf : v.inode? (fileName codec key) = some f) :
    ∃ entry, latest codec ops key = some entry ∧ decodeFile codec root key f.bytes = .found (some entry) := by
  have hentry := h.entry ⟨key, rfl⟩
  rw [hf, Option.map_some, last_entries] at hentry
  obtain ⟨file, hfile, hbytes⟩ := Option.map_eq_some_iff.mp hentry.symm
  obtain ⟨text, htext⟩ := h.texts file (latestFile_mem hfile).1
  have hread := hcodec file text htext
  refine ⟨file.entry, by rw [latest, hfile, Option.map_some], ?_⟩
  have htextOf : textOf codec file = text := by rw [textOf, htext]
  rw [decodeFile, ← hbytes, ofUtf8?_utf8, htextOf]
  dsimp only
  rw [hread]

end

theorem advance_spec {v w : Volume String} {pid objects : ℕ} {stage : Stage} {after : FileFrozenStore} {io : Io}
    {ops : List Op} (h : Kept codec v ops) (hown : stage.Sound codec v pid)
    (hadv : FileFrozenStore.advance codec root v pid ⟨objects, stage⟩ io = some (w, after)) :
    Advanced codec v pid io stage ops w after (FileFrozenStore.commits codec v pid ⟨objects, stage⟩ io) := by
  have hsame : ∀ pid', pid' ≠ pid → ∀ key, v.inode? (tempName codec pid' key) = v.inode? (tempName codec pid' key) :=
    fun _ _ _ => rfl
  cases stage with
  | idle | returned => cases hadv
  | storing key entry =>
    have hmore : FileFrozenStore.commits codec v pid ⟨objects, .storing key entry⟩ io = [] := by cases io <;> rfl
    dsimp only [FileFrozenStore.advance] at hadv
    split at hadv
    · cases hadv
      exact .answers hmore h hsame fun _ => hmore
    next text htext =>
      cases hadv
      exact .on hmore h hsame htext (by simp)
  | writing draft =>
    cases io with
    | ok =>
      cases hadv
      exact .on rfl (h.write pid _ _) (h.write_others _ _)
        ⟨hown, _, Volume.inode?_write _ _ _ fun _ hn => h.toSound.bound_now hn, rfl⟩ (by simp)
    | error e left =>
      cases hadv
      cases left with
      | none => exact .answers rfl h hsame fun _ => rfl
      | some bytes => exact .answers rfl (h.write pid _ _) (h.write_others _ _) fun _ => rfl
  | opening draft =>
    cases io with
    | ok =>
      dsimp only [FileFrozenStore.advance] at hadv
      split at hadv <;> cases hadv
      · exact .on rfl h hsame hown (by simp)
      · exact .answers rfl h hsame fun _ => rfl
    | error e left =>
      cases hadv
      exact .answers rfl h hsame fun _ => rfl
  | syncing draft =>
    cases io with
    | ok =>
      cases hadv
      obtain ⟨htext, f, hf, hbytes⟩ := hown
      refine .on rfl ⟨h.toArchive.sync (not_isObject_tempName codec pid _), h.texts⟩ ?_
        ⟨htext, _, Volume.inode?_sync hf, hbytes, rfl⟩ (by simp)
      exact fun pid' hpid key => h.toSound.inode?_sync_ne fun heq => hpid (tempName_pid heq)
    | error e left =>
      cases hadv
      exact .answers rfl h hsame fun _ => rfl
  | replacing draft =>
    cases io with
    | ok =>
      dsimp only [FileFrozenStore.advance, FileFrozenStore.commits] at hadv ⊢
      cases hw : v.rename (tempName codec pid draft.file.key) (fileName codec draft.file.key) with
      | none =>
        rw [hw] at hadv
        cases hadv
        exact .answers rfl h hsame fun _ => rfl
      | some u =>
        rw [hw] at hadv
        cases hadv
        refine ⟨h.rename hown hw, fun pid' hpid key => ?_, trivial, fun _ answer hanswer => ?_⟩
        · exact Volume.inode?_rename_ne hw (fun heq => hpid (tempName_pid heq)) (tempName_ne_fileName codec pid' key _)
        · cases hanswer
          exact ⟨draft, rfl, rfl⟩
    | error e left =>
      cases hadv
      exact .answers rfl h hsame fun _ => rfl
  | removing key =>
    have hmore : FileFrozenStore.commits codec v pid ⟨objects, .removing key⟩ io = [] := by cases io <;> rfl
    dsimp only [FileFrozenStore.advance] at hadv
    split at hadv
    · cases hadv
      exact .on hmore h hsame trivial (by simp)
    next hexists =>
      cases hadv
      exact .answers hmore h hsame fun _ => ⟨key, rfl, h.absent_of_exists hexists⟩
  | unlinking key =>
    cases io with
    | ok =>
      dsimp only [FileFrozenStore.advance, FileFrozenStore.commits] at hadv ⊢
      cases hw : v.unlink (fileName codec key) with
      | none =>
        rw [hw] at hadv
        cases hadv
        exact .answers rfl h hsame fun _ => rfl
      | some u =>
        rw [hw] at hadv
        cases hadv
        refine ⟨h.unlink hw, fun pid' _ key' => ?_, trivial, fun _ answer hanswer => ?_⟩
        · exact Volume.inode?_unlink_ne hw (tempName_ne_fileName codec pid' key' _)
        · cases hanswer
          refine ⟨key, rfl, rfl, fun hlatest => ?_⟩
          obtain ⟨n, hn, -⟩ := Option.map_eq_some_iff.mp hw
          have habsent := h.absent.mpr hlatest
          rw [Volume.inode?, Volume.file?, hn, Option.bind_some, List.getElem?_eq_none_iff] at habsent
          exact absurd (h.toSound.bound_now hn) (not_lt.mpr habsent)
    | error e left =>
      cases hadv
      exact .answers rfl h hsame fun _ => rfl
  | fetching key =>
    have hmore : FileFrozenStore.commits codec v pid ⟨objects, .fetching key⟩ io = [] := by cases io <;> rfl
    dsimp only [FileFrozenStore.advance] at hadv
    split at hadv
    · cases hadv
      exact .on hmore h hsame trivial (by simp)
    next hexists =>
      cases hadv
      exact .answers hmore h hsame fun _ => ⟨key, rfl, h.absent_of_exists hexists⟩
  | reading key =>
    cases io with
    | ok =>
      dsimp only [FileFrozenStore.advance] at hadv
      cases hf : v.inode? (fileName codec key) with
      | none =>
        rw [hf] at hadv
        cases hadv
        exact .answers rfl h hsame fun _ => rfl
      | some f =>
        rw [hf] at hadv
        cases hadv
        refine .answers rfl h hsame fun hcodec => ?_
        obtain ⟨entry, hlatest, hdecode⟩ := h.decode hcodec root hf
        rw [hdecode]
        exact ⟨key, rfl, hlatest⟩
    | error e left =>
      cases hadv
      exact .answers rfl h hsame fun _ => rfl

/-! ### Runs -/

structure Inv (codec : Codec) (s : State) (ops : List Op) : Prop where
  kept : Kept codec s.volume ops
  stages : ∀ pid store, Dict.get? s.stores pid = some store → store.stage.Sound codec s.volume pid

theorem Inv.insert {s : State} {ops : List Op} (h : Inv codec s ops) {pid : ℕ} {store : FileFrozenStore}
    (hstore : store.stage.Sound codec s.volume pid) :
    Inv codec { s with stores := Dict.insert s.stores pid store } ops := by
  refine ⟨h.kept, fun pid' store' h' => ?_⟩
  rw [Dict.get?_insert] at h'
  split at h'
  next hpid =>
    cases Option.some.inj h'
    exact hpid ▸ hstore
  next => exact h.stages pid' store' h'

theorem advance_eq_some {s t : State} {pid : ℕ} {io : Io} (h : step codec root s (.advance pid io) = some t) :
    ∃ store w after, Dict.get? s.stores pid = some store ∧ store.advance codec root s.volume pid io = some (w, after) ∧
      t = ⟨w, Dict.insert s.stores pid after⟩ := by
  obtain ⟨store, hstore, h⟩ := Option.bind_eq_some_iff.mp h
  obtain ⟨⟨w, after⟩, hadv, h⟩ := Option.bind_eq_some_iff.mp h
  exact ⟨store, w, after, hstore, hadv, (Option.some.inj h).symm⟩

theorem Inv.step {s t : State} {a : Action} {ops : List Op} (h : Inv codec s ops) (ha : a.isPowerLoss = false)
    (hs : step codec root s a = some t) : Inv codec t (ops ++ committed codec s a) := by
  cases a with
  | losePower => cases ha
  | launch pid =>
    change Inv codec t (ops ++ [])
    rw [List.append_nil]
    dsimp only [Frozen.step] at hs
    split at hs
    · cases hs
    · cases hs
      exact h.insert trivial
  | call pid request =>
    change Inv codec t (ops ++ [])
    rw [List.append_nil]
    dsimp only [Frozen.step] at hs
    split at hs
    · split at hs
      · cases hs
        exact h.insert (by cases request <;> trivial)
      · cases hs
        exact h.insert (by cases request <;> trivial)
      · cases hs
    · cases hs
  | kill pid =>
    change Inv codec t (ops ++ [])
    rw [List.append_nil]
    obtain ⟨store, -, rfl⟩ := Option.map_eq_some_iff.mp hs
    refine ⟨h.kept, fun pid' store' h' => h.stages pid' store' ?_⟩
    rw [Dict.get?_erase] at h'
    split at h'
    · cases h'
    · exact h'
  | advance pid io =>
    obtain ⟨store, w, after, hstore, hadv, rfl⟩ := advance_eq_some hs
    have hnew := advance_spec h.kept (h.stages pid store hstore) hadv
    rw [committed, hstore]
    refine ⟨hnew.kept, fun pid' store' h' => ?_⟩
    rw [Dict.get?_insert] at h'
    split at h'
    next hpid =>
      cases Option.some.inj h'
      exact hpid ▸ hnew.own
    next hpid => exact (h.stages pid' store' h').frame (hnew.others pid' hpid)

theorem Inv.losePower {s t : State} {back : ℕ} {remains : ℕ → Bytes} {ops : List Op} (h : Inv codec s ops)
    (hs : Frozen.step codec root s (.losePower back remains) = some t) :
    ∃ n ≤ ops.length, Inv codec t (ops.take n) := by
  obtain ⟨w, hw, rfl⟩ := Option.map_eq_some_iff.mp hs
  obtain ⟨n, hn, harchive⟩ := h.kept.toArchive.losePower hw
  rw [List.length_map] at hn
  rw [← List.map_take] at harchive
  exact ⟨n, hn, ⟨harchive, fun file hfile => h.kept.texts file (List.mem_of_mem_take hfile)⟩, nofun⟩

theorem exists_history {s : State} (h : (host codec root).Reachable .start s) :
    ∃ ops, History codec root s ops ∧ Inv codec s ops := by
  induction h with
  | refl => exact ⟨[], .start, ⟨.empty, nofun⟩, nofun⟩
  | @step s t a hreach _ hs ih =>
    obtain ⟨ops, hhistory, hinv⟩ := ih
    by_cases ha : a.isPowerLoss = true
    · cases a with
      | losePower back remains =>
        have hloss : Frozen.step codec root s (.losePower back remains) = some t := hs
        obtain ⟨n, hn, hnew⟩ := hinv.losePower hloss
        exact ⟨_, hhistory.losePower hloss hn, hnew⟩
      | launch | call | advance | kill => cases ha
    · rw [Bool.not_eq_true] at ha
      exact ⟨_, hhistory.step ha hs, hinv.step ha hs⟩

/-- The answer of a `get` that is alone and meets no failure. -/
def fetch (codec : Codec) (root : String) (v : Volume String) (key : String) : Answer :=
  match v.inode? (fileName codec key) with
  | none => .found none
  | some f => decodeFile codec root key f.bytes

theorem Kept.fetch {v : Volume String} {ops : List Op} (h : Kept codec v ops) (hcodec : codec.RoundTrips)
    (key : String) : Frozen.fetch codec root v key = .found (latest codec ops key) := by
  unfold Frozen.fetch
  cases hf : v.inode? (fileName codec key) with
  | none => rw [h.absent.mp hf]
  | some f =>
    obtain ⟨entry, hlatest, hdecode⟩ := h.decode hcodec root hf
    rw [hlatest]
    exact hdecode

/-- Whatever fails, is cut off or runs in parallel, the store is the map of its history, and every
answer is true of it. -/
theorem keeps_history (hcodec : codec.RoundTrips) {s : State} (h : (host codec root).Reachable .start s) :
    ∃ ops, History codec root s ops ∧ (∀ key, fetch codec root s.volume key = .found (latest codec ops key)) ∧
      ∀ pid io store t after answer, Dict.get? s.stores pid = some store →
        step codec root s (.advance pid io) = some t → Dict.get? t.stores pid = some after →
        after.stage = .returned answer →
        answer.Truthful codec ops (committed codec s (.advance pid io)) io store.stage := by
  obtain ⟨ops, hhistory, hinv⟩ := exists_history h
  refine ⟨ops, hhistory, hinv.kept.fetch hcodec, fun pid io store t after answer hstore hs hafter hanswer => ?_⟩
  obtain ⟨store', w, after', hstore', hadv, rfl⟩ := advance_eq_some hs
  rw [hstore] at hstore'
  cases Option.some.inj hstore'
  rw [Dict.get?_insert, if_pos rfl] at hafter
  cases Option.some.inj hafter
  rw [committed, hstore]
  exact (advance_spec hinv.kept (hinv.stages pid store hstore) hadv).truthful hcodec answer hanswer

/-! ### A run -/

def sampleFile (value : Bool) : FrozenFile := ⟨"sensor", "telemetry", .bool value⟩

def sampleText : Bool → String
  | true => "\x7b\"key\":\"sensor\",\"class\":\"telemetry\",\"value\":true\x7d"
  | false => "\x7b\"key\":\"sensor\",\"class\":\"telemetry\",\"value\":false\x7d"

def sampleToText (file : FrozenFile) : Except String String :=
  if file.key = "sensor" ∧ file.className = "telemetry" then
    match file.value with
    | .bool value => .ok (sampleText value)
    | _ => .error "unsupported"
  else .error "unsupported"

/-- The SHA-256 digest of `sensor`. -/
def sampleDigest (bytes : Bytes) : Bytes :=
  if bytes = utf8 "sensor" then
    [202, 115, 246, 16, 52, 175, 194, 109, 150, 200, 92, 13, 34, 133, 225, 240, 139, 40, 59, 137, 20, 38, 206, 248,
      192, 94, 218, 91, 243, 225, 45, 223]
  else List.replicate 32 0

def sampleCodec : Codec where
  toText := sampleToText
  fromText text :=
    if text = sampleText true then .ok (sampleFile true)
    else if text = sampleText false then .ok (sampleFile false)
    else .error "unsupported"
  digest := sampleDigest
  digest_length bytes := by
    unfold sampleDigest
    split_ifs <;> rfl

theorem sampleCodec_roundTrips : sampleCodec.RoundTrips := by
  intro file text h
  change sampleToText file = .ok text at h
  obtain ⟨key, className, value⟩ := file
  unfold sampleToText at h
  split at h
  next hnames =>
    obtain ⟨rfl, rfl⟩ := hnames
    cases value with
    | bool value =>
      cases Except.ok.inj h
      cases value
      · rfl
      · rfl
    | null | number | string | array | object => cases h
  · cases h

/-- The calls of the file system that `put` makes, up to the last. -/
def putUpTo (pid : ℕ) (value : Bool) : List Action :=
  .call pid (.put "sensor" (sampleFile value).entry) :: List.replicate 4 (.advance pid .ok)

/-- A write is torn, another process replaces the object while it is read, and the host loses its power
before the disk has the new directory. -/
def sampleRun : List Action :=
  [.launch 1, .launch 2] ++ putUpTo 1 true ++
    [.advance 1 .ok, .call 2 (.put "sensor" (sampleFile false).entry), .advance 2 .ok,
      .advance 2 (.error "No space left on device (os error 28)" (some [123])), .call 1 (.get "sensor"),
      .advance 1 .ok] ++
    putUpTo 2 false ++ [.advance 2 .ok, .advance 1 .ok, .losePower 1 fun _ => []]

def sampleState : State := ((host sampleCodec "frozen").exec .start sampleRun).getD .start

theorem exec_sampleRun : (host sampleCodec "frozen").exec .start sampleRun = some sampleState := by
  have hsome : ((host sampleCodec "frozen").exec .start sampleRun).isSome = true := by decide +kernel
  obtain ⟨s, hs⟩ := Option.isSome_iff_exists.mp hsome
  rw [sampleState, hs, Option.getD_some]

theorem keeps_history_sample : ∃ ops, History sampleCodec "frozen" sampleState ops ∧
    (∀ key, fetch sampleCodec "frozen" sampleState.volume key = .found (latest sampleCodec ops key)) ∧
    ∀ pid io store t after answer, Dict.get? sampleState.stores pid = some store →
      step sampleCodec "frozen" sampleState (.advance pid io) = some t → Dict.get? t.stores pid = some after →
      after.stage = .returned answer →
      answer.Truthful sampleCodec ops (committed sampleCodec sampleState (.advance pid io)) io store.stage :=
  keeps_history sampleCodec_roundTrips (.of_exec sampleRun exec_sampleRun fun _ _ _ => trivial)

/-! ### The tier of the manager -/

/-- `RecordingFrozenStore`, the store in memory, after the calls of a history. -/
def recording (ops : List Op) : Dict String FrozenEntry :=
  ops.foldl (fun entries op =>
    match op with
    | .put file => Dict.insert entries file.key file.entry
    | .remove key => Dict.erase entries key) Dict.empty

theorem get?_recording_concat (ops : List Op) (op : Op) (key : String) :
    Dict.get? (recording (ops ++ [op])) key =
      if op.key = key then op.file?.map FrozenFile.entry else Dict.get? (recording ops) key := by
  rw [recording, List.foldl_append]
  cases op with
  | put file =>
    refine (Dict.get?_insert _ _ _ _).trans ?_
    simp only [Op.key, Op.file?, eq_comm, recording]
    rfl
  | remove k =>
    refine (Dict.get?_erase _ _ _).trans ?_
    simp only [Op.key, Op.file?, eq_comm, recording]
    rfl

/-- The files are the map in memory at every key that shares its digest with no other. -/
theorem get?_recording {ops : List Op} {key : String}
    (h : ∀ op ∈ ops, codec.digest (utf8 op.key) = codec.digest (utf8 key) → op.key = key) :
    Dict.get? (recording ops) key = latest codec ops key := by
  induction ops using List.reverseRecOn with
  | nil => rfl
  | append_singleton ops op ih =>
    have hrest := ih fun op' hop' => h op' (List.mem_append_left _ hop')
    rw [get?_recording_concat, latest, latestFile_concat]
    by_cases hkey : op.key = key
    · rw [if_pos hkey, if_pos (by rw [hkey])]
    · rw [if_neg hkey, if_neg fun hdigest => hkey (h op (List.mem_append_right _ List.mem_cons_self) hdigest)]
      exact hrest

/-- A call of the manager that succeeds is one of the history, and one that fails is none. -/
theorem tierPut_recording {policy : MemoryPolicy} {platform : Platform} {s : Manager} {ops : List Op}
    (h : s.tiers .frozen = recording ops) (hbackend : policy.backends.frozen = true) (key : String)
    (entry : FrozenEntry) :
    (s.tierPut policy platform .frozen key entry).2.tiers .frozen = recording
      (if platform.fault (.put .frozen key) = none then ops ++ [.put ⟨key, entry.className, entry.value⟩] else ops) := by
  have henabled : policy.backends.enabled .frozen = true := hbackend
  rw [Manager.tierPut, henabled]
  dsimp only [Manager.classClash]
  rw [Bool.not_true, if_neg Bool.false_ne_true]
  cases platform.fault (.put .frozen key) with
  | some e =>
    rw [if_neg (Option.some_ne_none e)]
    exact h
  | none =>
    dsimp only
    rw [if_pos rfl, Function.update_self, h, recording, recording, List.foldl_append]
    rfl

end Jaiba.Memory.Frozen
