import Mathlib.Data.List.Infix
import Jaiba.Mongo.PutMongoDb

/-!
# Batches of upserts

The calls of a write are its documents in their order, cut by the number of
operations and by their bytes. What the cut does not count are the wrappers of
the operations, which leave the margin when they are many.
-/

namespace Jaiba.Mongo
open Jaiba.Lib

/-! ### Sizes of a command -/

/-- The wrappers of `count` operations: the braces and the names of `q`, `u` and `upsert`, and
the index in the array. -/
def wrappers : ℕ → ℕ → ℕ
  | _, 0 => 0
  | index, count + 1 => 21 + indexSize index + wrappers (index + 1) count

theorem toDocument_size (o : Operation) : (Bson.document o.toDocument).size = 20 + o.size := by
  have hq : cstringSize "q" = 2 := rfl
  have hu : cstringSize "u" = 2 := rfl
  have hupsert : cstringSize "upsert" = 7 := rfl
  simp only [Operation.toDocument, Bson.size, fieldsSize, hq, hu, hupsert, Operation.size,
    Document.size]
  omega

theorem itemsSize_operations (index : ℕ) (updates : List Operation) :
    itemsSize index (updates.map fun o => .document o.toDocument) =
      (updates.map Operation.size).sum + wrappers index updates.length := by
  induction updates generalizing index with
  | nil => rfl
  | cons o updates ih =>
    rw [List.map_cons, itemsSize, toDocument_size, ih, List.map_cons, List.sum_cons,
      List.length_cons, wrappers]
    omega

/-- The bytes of a command: those of its operations and of the wrappers. -/
theorem command_size (c : Command) : c.toDocument.size =
    (c.updates.map Operation.size).sum + (42 + c.collection.utf8ByteSize + wrappers 0 c.updates.length) := by
  have hupdate : cstringSize "update" = 7 := rfl
  have hupdates : cstringSize "updates" = 8 := rfl
  have hordered : cstringSize "ordered" = 8 := rfl
  simp only [Command.toDocument, Document.size, fieldsSize, Bson.size, hupdate, hupdates, hordered,
    itemsSize_operations]
  rw [cstringSize]
  omega

theorem wrappers_ge (index count : ℕ) : 23 * count ≤ wrappers index count := by
  induction count generalizing index with
  | zero => exact Nat.zero_le _
  | succ count ih =>
    have hrest := ih (index + 1)
    have hindex := indexSize_pos index
    rw [wrappers]
    omega

theorem wrappers_le {index count : ℕ} (h : index + count ≤ 100000) :
    wrappers index count ≤ 27 * count := by
  induction count generalizing index with
  | zero => exact Nat.le_refl _
  | succ count ih =>
    have hrest := @ih (index + 1) (by omega)
    have hindex : indexSize index ≤ 5 + 1 := indexSize_le (by omega) (by omega)
    rw [wrappers]
    omega

/-- 16 MiB, and 16 KiB for what a command has around its documents. -/
def maxCommandBytes : ℕ := 16 * 1024 * 1024 + 16 * 1024

def maxMessageBytes : ℕ := 48000000

/-- A command with what the driver adds to it, alone and in a message (a header, flags and
the kind of its section). -/
structure WithinLimits (added : ℕ) (c : Command) : Prop where
  document : c.toDocument.size + added ≤ maxCommandBytes
  message : 21 + c.toDocument.size + added ≤ maxMessageBytes

namespace PutMongoDb

variable (p : PutMongoDb) (crate : Crate) (driver : Driver)

/-! ### Batches that are cut -/

def full (current : List Operation) (o : Operation) : Bool :=
  current.length == p.batchSize ||
    decide (upsertCommandBytes < (current.map Operation.size).sum + o.size)

/-- The operations before the first document that is refused, and why it is. -/
def operations : ℕ → List Document → List Operation × Option FlowError
  | _, [] => ([], none)
  | index, document :: rest =>
    match p.operation crate index document with
    | .error e => ([], some e)
    | .ok o => (o :: (operations (index + 1) rest).1, (operations (index + 1) rest).2)

/-- The batches that are closed; the last one is not, if a document is refused. -/
def batchesFrom (index : ℕ) (current : List Operation) (documents : List Document) :
    List (List Operation) :=
  match (p.operations crate index documents).2 with
  | none => cutFrom p.full current (p.operations crate index documents).1
  | some _ => (cutFrom p.full current (p.operations crate index documents).1).dropLast

def batches (documents : List Document) : List (List Operation) := p.batchesFrom crate 0 [] documents

/-- The commands of batches that begin at an index. -/
def commands (start : ℕ) (batches : List (List Operation)) : List Sent :=
  (located start batches).map fun b => .update b.1 (p.command b.2)

end PutMongoDb

/-! ### Calls -/

def Accepted (driver : Driver) (n first : ℕ) (command : Command) : Prop :=
  ∃ reply k, driver.runCommand n command = .ok reply ∧ upsertReply reply first = .ok k

def Failed (driver : Driver) (n first : ℕ) (command : Command) (e : FlowError) : Prop :=
  driver.runCommand n command = .error e ∨
    ∃ reply, driver.runCommand n command = .ok reply ∧ upsertReply reply first = .error e

/-- Calls from the `n`-th on, of which only the last may fail. -/
inductive Ran (driver : Driver) : ℕ → List Sent → Option FlowError → Prop
  | nil {n : ℕ} : Ran driver n [] none
  | failed {n first : ℕ} {command : Command} {e : FlowError} (h : Failed driver n first command e) :
    Ran driver n [.update first command] (some e)
  | next {n first : ℕ} {command : Command} {rest : List Sent} {r : Option FlowError}
    (h : Accepted driver n first command) (hrest : Ran driver (n + 1) rest r) :
    Ran driver n (.update first command :: rest) r

theorem Ran.obliging {driver : Driver} {n : ℕ} {calls : List Sent} {r : Option FlowError}
    (h : Ran driver n calls r) (hdriver : ∀ n command, driver.runCommand n command = .ok []) :
    r = none := by
  induction h with
  | nil => rfl
  | failed h =>
    rcases h with h | ⟨reply, hreply, h⟩
    · rw [hdriver] at h
      cases h
    · rw [hdriver] at hreply
      cases hreply
      cases h
  | next _ _ ih => exact ih

theorem Ran.last {driver : Driver} {n first : ℕ} {front : List Sent} {command : Command}
    {r : Option FlowError} (h : Ran driver n (front ++ [.update first command]) r) :
    Accepted driver (n + front.length) first command ∨
      ∃ e, r = some e ∧ Failed driver (n + front.length) first command e := by
  induction front generalizing n with
  | nil =>
    cases h with
    | failed h => exact .inr ⟨_, rfl, h⟩
    | next h _ => exact .inl h
  | cons call front ih =>
    have hcount : n + (call :: front).length = n + 1 + front.length := by
      rw [List.length_cons]
      omega
    rw [hcount]
    rw [List.cons_append] at h
    generalize hrest : front ++ [Sent.update first command] = rest at h
    cases h with
    | failed h =>
      have hnil := List.append_eq_nil_iff.mp hrest
      cases hnil.2
    | next _ hran =>
      rw [← hrest] at hran
      exact ih hran

namespace PutMongoDb

variable {p : PutMongoDb} {crate : Crate} {driver : Driver}

theorem runUpsert_cases (s : Upserting) :
    (p.runUpsert driver s).2 = s.sent ++ [.update s.firstIndex (p.command s.updates)] ∧
      ((∃ n, (p.runUpsert driver s).1 = .ok n ∧
          Accepted driver s.sent.length s.firstIndex (p.command s.updates)) ∨
        ∃ e, (p.runUpsert driver s).1 = .error e ∧
          Failed driver s.sent.length s.firstIndex (p.command s.updates) e) := by
  refine ⟨rfl, ?_⟩
  unfold runUpsert
  cases hreply : driver.runCommand s.sent.length (p.command s.updates) with
  | error e => exact .inr ⟨e, rfl, .inl hreply⟩
  | ok reply =>
    dsimp only
    cases hresult : upsertReply reply s.firstIndex with
    | error e => exact .inr ⟨e, rfl, .inr ⟨reply, hreply, hresult⟩⟩
    | ok n => exact .inl ⟨n, rfl, reply, n, hreply, hresult⟩

/-- The calls of the loop from a state on: those of the batches, up to the first that fails. -/
structure Runs (p : PutMongoDb) (crate : Crate) (driver : Driver) (index : ℕ)
    (documents : List Document) (s : Upserting) (out : Outcome) : Prop where
  calls : ∃ calls r, out.2 = s.sent ++ calls ∧ Ran driver s.sent.length calls r ∧
    calls <+: p.commands s.firstIndex (p.batchesFrom crate index s.updates documents) ∧
    (∀ e, r = some e → out.1 = .error e) ∧
    (r = none → calls = p.commands s.firstIndex (p.batchesFrom crate index s.updates documents) ∧
      (out.1.isOk = true → (p.operations crate index documents).2 = none))

theorem batchesFrom_refused {index : ℕ} {document : Document} {e : FlowError}
    (h : p.operation crate index document = .error e) (current : List Operation) (rest : List Document) :
    p.batchesFrom crate index current (document :: rest) = [] := by
  simp only [batchesFrom, operations, h, cutFrom]
  split <;> rfl

theorem batchesFrom_closed {index : ℕ} {document : Document} {o : Operation}
    (h : p.operation crate index document = .ok o) {current : List Operation}
    (hfull : (!current.isEmpty && p.full current o) = true) (rest : List Document) :
    p.batchesFrom crate index current (document :: rest) =
      current :: p.batchesFrom crate (index + 1) [o] rest := by
  have hne : cutFrom p.full [o] (p.operations crate (index + 1) rest).1 ≠ [] :=
    cutFrom_ne_nil (List.cons_ne_nil o []) _
  simp only [batchesFrom, operations, h, cutFrom, hfull, if_true]
  cases (p.operations crate (index + 1) rest).2 with
  | none => rfl
  | some e => exact List.dropLast_cons_of_ne_nil hne

theorem batchesFrom_open {index : ℕ} {document : Document} {o : Operation}
    (h : p.operation crate index document = .ok o) {current : List Operation}
    (hfull : (!current.isEmpty && p.full current o) = false) (rest : List Document) :
    p.batchesFrom crate index current (document :: rest) =
      p.batchesFrom crate (index + 1) (current ++ [o]) rest := by
  simp only [batchesFrom, operations, h, cutFrom, hfull, Bool.false_eq_true, if_false]

theorem operations_error {index : ℕ} {document : Document} {o : Operation}
    (h : p.operation crate index document = .ok o) (rest : List Document) :
    (p.operations crate index (document :: rest)).2 = (p.operations crate (index + 1) rest).2 := by
  simp only [operations, h]

/-- The batch in hand is sent when it is full, and the rest follows. -/
theorem upsertFrom_runs {index : ℕ} {documents : List Document} {s : Upserting}
    (hbytes : s.bytes = (s.updates.map Operation.size).sum)
    (hindex : index = s.firstIndex + s.updates.length) :
    Runs p crate driver index documents s (p.upsertFrom crate driver index documents s) := by
  induction documents generalizing index s with
  | nil =>
    unfold upsertFrom
    by_cases hempty : s.updates.isEmpty = true
    · rw [if_pos hempty]
      have hplan : p.batchesFrom crate index s.updates [] = [] := by
        rw [batchesFrom, operations, cutFrom, if_pos hempty]
      refine ⟨[], none, (List.append_nil _).symm, .nil, List.nil_prefix, fun e h => (by cases h),
        fun _ => ⟨?_, fun _ => rfl⟩⟩
      rw [hplan]
      rfl
    · rw [if_neg hempty]
      have hplan : p.batchesFrom crate index s.updates [] = [s.updates] := by
        rw [batchesFrom, operations, cutFrom, if_neg hempty]
      obtain ⟨hsent, ⟨n, hok, haccepted⟩ | ⟨e, herror, hfailed⟩⟩ := @runUpsert_cases p driver s
      · refine ⟨[.update s.firstIndex (p.command s.updates)], none, ?_, .next haccepted .nil, ?_,
          fun e h => (by cases h), fun _ => ⟨?_, fun _ => rfl⟩⟩
        · rw [← hsent]
          generalize p.runUpsert driver s = step at hok ⊢
          obtain ⟨result, sent⟩ := step
          cases hok
          rfl
        · rw [hplan]
          exact List.prefix_refl _
        · rw [hplan]
          rfl
      · refine ⟨[.update s.firstIndex (p.command s.updates)], some e, ?_, .failed hfailed, ?_,
          fun e' h => ?_, fun h => (by cases h)⟩
        · rw [← hsent]
          generalize p.runUpsert driver s = step at herror ⊢
          obtain ⟨result, sent⟩ := step
          cases herror
          rfl
        · rw [hplan]
          exact List.prefix_refl _
        · cases h
          generalize p.runUpsert driver s = step at herror ⊢
          obtain ⟨result, sent⟩ := step
          cases herror
          rfl
  | cons document rest ih =>
    unfold upsertFrom
    cases hoperation : p.operation crate index document with
    | error e =>
      refine ⟨[], none, (List.append_nil _).symm, .nil, List.nil_prefix, fun e h => (by cases h),
        fun _ => ⟨?_, fun h => (by cases h)⟩⟩
      rw [batchesFrom_refused hoperation]
      rfl
    | ok o =>
      dsimp only
      have hfull : (s.updates.length == p.batchSize || decide (upsertCommandBytes < s.bytes + o.size)) =
          p.full s.updates o := by
        rw [full, hbytes]
      rw [hfull]
      by_cases hclosed : (!s.updates.isEmpty && p.full s.updates o) = true
      · have hplan : p.commands s.firstIndex (p.batchesFrom crate index s.updates (document :: rest)) =
            .update s.firstIndex (p.command s.updates) ::
              p.commands index (p.batchesFrom crate (index + 1) [o] rest) := by
          rw [batchesFrom_closed hoperation hclosed, hindex]
          rfl
        rw [if_pos hclosed]
        obtain ⟨hsent, ⟨n, hok, haccepted⟩ | ⟨e, herror, hfailed⟩⟩ := @runUpsert_cases p driver s
        · generalize p.runUpsert driver s = step at hok hsent ⊢
          obtain ⟨result, sent⟩ := step
          cases hok
          cases hsent
          have hrest := @ih (index + 1)
            ⟨s.written + n, s.batches + 1, [o], index, o.size, s.sent ++ [.update s.firstIndex (p.command s.updates)]⟩
            (List.sum_singleton).symm rfl
          obtain ⟨calls, r, hcalls, hran, hfront, herror, hdone⟩ := hrest
          rw [List.length_append, List.length_singleton] at hran
          refine ⟨.update s.firstIndex (p.command s.updates) :: calls, r, ?_, .next haccepted hran, ?_,
            herror, fun h => ⟨?_, ?_⟩⟩
          · exact hcalls.trans (List.append_assoc _ _ _)
          · rw [hplan]
            exact List.cons_prefix_cons.mpr ⟨rfl, hfront⟩
          · rw [hplan, (hdone h).1]
          · rw [operations_error hoperation]
            exact (hdone h).2
        · generalize p.runUpsert driver s = step at herror hsent ⊢
          obtain ⟨result, sent⟩ := step
          cases herror
          cases hsent
          refine ⟨[.update s.firstIndex (p.command s.updates)], some e, rfl, .failed hfailed, ?_,
            fun e' h => ?_, fun h => (by cases h)⟩
          · rw [hplan]
            exact ⟨_, rfl⟩
          · cases h
            rfl
      · rw [if_neg hclosed]
        have hrest := @ih (index + 1) { s with bytes := s.bytes + o.size, updates := s.updates ++ [o] }
          (by rw [List.map_append, List.sum_append, hbytes, List.map_singleton, List.sum_singleton])
          (by rw [hindex, List.length_append, List.length_singleton, Nat.add_assoc])
        obtain ⟨calls, r, hcalls, hran, hfront, herror, hdone⟩ := hrest
        have hplan : p.batchesFrom crate index s.updates (document :: rest) =
            p.batchesFrom crate (index + 1) (s.updates ++ [o]) rest :=
          batchesFrom_open hoperation (Bool.eq_false_iff.mpr hclosed) rest
        refine ⟨calls, r, hcalls, hran, ?_, herror, fun h => ⟨?_, ?_⟩⟩
        · rw [hplan]
          exact hfront
        · rw [hplan]
          exact (hdone h).1
        · rw [operations_error hoperation]
          exact (hdone h).2

/-! ### What the batches hold -/

theorem operation_document {index : ℕ} {document : Document} {o : Operation}
    (h : p.operation crate index document = .ok o) : o.document = document := by
  obtain ⟨filter, _, h⟩ := bind_ok h
  obtain ⟨_, _, h⟩ := bind_ok h
  obtain ⟨_, _, h⟩ := bind_ok h
  cases h
  rfl

/-- The operations are those of the first documents, and of all if none is refused. -/
theorem operations_documents (index : ℕ) (documents : List Document) :
    (p.operations crate index documents).1.map Operation.document <+: documents ∧
      ((p.operations crate index documents).2 = none →
        (p.operations crate index documents).1.map Operation.document = documents) := by
  induction documents generalizing index with
  | nil => exact ⟨List.prefix_refl _, fun _ => rfl⟩
  | cons document rest ih =>
    unfold operations
    cases hoperation : p.operation crate index document with
    | error e => exact ⟨List.nil_prefix, fun h => (by cases h)⟩
    | ok o =>
      obtain ⟨hfront, hall⟩ := ih (index + 1)
      refine ⟨?_, fun h => ?_⟩
      · rw [List.map_cons, operation_document hoperation]
        exact List.cons_prefix_cons.mpr ⟨rfl, hfront⟩
      · rw [List.map_cons, operation_document hoperation, hall h]

theorem mem_cut_of_batches {documents : List Document} {batch : List Operation}
    (h : batch ∈ p.batches crate documents) :
    batch ∈ cut p.full (p.operations crate 0 documents).1 := by
  unfold batches batchesFrom at h
  split at h
  · exact h
  · exact List.dropLast_subset _ h

theorem batches_flatten (documents : List Document) :
    (p.batches crate documents).flatten <+: (p.operations crate 0 documents).1 ∧
      ((p.operations crate 0 documents).2 = none →
        (p.batches crate documents).flatten = (p.operations crate 0 documents).1) := by
  have hcut := @cut_flatten _ p.full (p.operations crate 0 documents).1
  unfold batches batchesFrom
  cases (p.operations crate 0 documents).2 with
  | none => exact ⟨hcut.symm ▸ List.prefix_refl _, fun _ => hcut⟩
  | some e =>
    refine ⟨?_, fun h => (by cases h)⟩
    obtain ⟨rest, hrest⟩ := List.dropLast_prefix (cut p.full (p.operations crate 0 documents).1)
    rw [← hrest, List.flatten_append] at hcut
    exact ⟨rest.flatten, hcut⟩

theorem batch_length {documents : List Document} {batch : List Operation}
    (h : batch ∈ p.batches crate documents) : batch ≠ [] ∧ batch.length ≤ p.batchSize := by
  have hmem := mem_cut_of_batches h
  refine ⟨ne_nil_of_mem_cut hmem, ?_⟩
  refine cut_forall (P := fun batch => batch.length ≤ p.batchSize) (fun _ => p.batchSize_pos) ?_ hmem
  intro current o _ hlength hopen
  have hne : current.length ≠ p.batchSize := by
    intro heq
    rw [full, heq, beq_self_eq_true, Bool.true_or] at hopen
    cases hopen
  rw [List.length_append, List.length_singleton]
  omega

theorem batch_bytes {documents : List Document} {batch : List Operation}
    (h : batch ∈ p.batches crate documents) (hmany : 1 < batch.length) :
    (batch.map Operation.size).sum ≤ upsertCommandBytes := by
  refine cut_forall (P := fun batch => 1 < batch.length →
    (batch.map Operation.size).sum ≤ upsertCommandBytes) ?_ ?_ (mem_cut_of_batches h) hmany
  · intro o hone
    exact absurd hone (Nat.lt_irrefl 1)
  · intro current o _ _ hopen _
    rw [full, Bool.or_eq_false_iff, decide_eq_false_iff_not] at hopen
    rw [List.map_append, List.sum_append, List.map_singleton, List.sum_singleton]
    exact Nat.le_of_not_lt hopen.2

theorem commands_documents (start : ℕ) (batches : List (List Operation)) :
    (p.commands start batches).flatMap Sent.documents = batches.flatten.map Operation.document := by
  induction batches generalizing start with
  | nil => rfl
  | cons batch rest ih =>
    rw [List.flatten_cons, List.map_append, ← ih (start + batch.length)]
    rfl

theorem mem_commands {start : ℕ} {batches : List (List Operation)} {call : Sent}
    (h : call ∈ p.commands start batches) :
    ∃ first batch, (first, batch) ∈ located start batches ∧ batch ∈ batches ∧
      call = .update first (p.command batch) := by
  obtain ⟨b, hb, rfl⟩ := List.mem_map.mp h
  refine ⟨b.1, b.2, hb, ?_, rfl⟩
  have hmem := List.mem_map_of_mem (f := Prod.snd) hb
  rwa [located_batches] at hmem

end PutMongoDb

/-! ### Records of the packet -/

section records
variable {crate : Crate}

theorem recordDocuments_item {index : ℕ} {records : List Json} {documents : List Document}
    (h : PutMongoDb.recordDocuments crate index records = .ok documents) {i : ℕ} {document : Document}
    (hi : documents[i]? = some document) : ∃ record, records[i]? = some record ∧
      recordDocument crate record ("put_mongodb record " ++ toString (index + i)) = .ok document := by
  induction records generalizing index documents i with
  | nil =>
    cases h
    cases hi
  | cons record records ih =>
    obtain ⟨first, hfirst, h⟩ := bind_ok h
    obtain ⟨rest, hrest, h⟩ := bind_ok h
    cases h
    cases i with
    | zero =>
      cases hi
      exact ⟨record, rfl, hfirst⟩
    | succ i =>
      obtain ⟨found, hfound, hdocument⟩ := ih hrest hi
      have hnext : index + 1 + i = index + (i + 1) := by omega
      rw [hnext] at hdocument
      exact ⟨found, hfound, hdocument⟩

theorem getElem?_of_prefix {α : Type} {xs ys : List α} (h : xs <+: ys) {i : ℕ} {x : α}
    (hx : xs[i]? = some x) : ys[i]? = some x := by
  obtain ⟨rest, rfl⟩ := h
  rw [List.getElem?_append_left (List.getElem?_eq_some_iff.mp hx).1]
  exact hx

end records

/-- The calls of a write are well batched: in the order of the documents, within the number
of operations and within the server's limits where a command has several of them; and a
failed operation is reported under the index of its record. -/
structure WellBatched (added : ℕ) (p : PutMongoDb) (crate : Crate) (driver : Driver)
    (records : List Json) (documents : List Document) (out : Outcome) : Prop where
  ordered : out.2.flatMap Sent.documents <+: documents
  complete : out.1.isOk = true → out.2.flatMap Sent.documents = documents
  counted : ∀ call ∈ out.2, call.documents ≠ [] ∧ call.documents.length ≤ p.batchSize
  fits : ∀ first command, .update first command ∈ out.2 → 1 < command.updates.length →
    WithinLimits added command
  reported : ∀ front first command reply error errors,
    out.2 = front ++ [.update first command] → driver.runCommand front.length command = .ok reply →
      reply.get "writeErrors" = some (.array (error :: errors)) →
        ∀ o, command.updates[errorIndex error]? = some o →
          ∃ record e, records[first + errorIndex error]? = some record ∧
            recordDocument crate record
              ("put_mongodb record " ++ toString (first + errorIndex error)) = .ok o.document ∧
            (e = .databaseConnector (writeErrorMessage error errors (first + errorIndex error)) ∨
              e = .databaseRejected (writeErrorMessage error errors (first + errorIndex error))) ∧
            out.1 = .error e

/-- What the margin has to hold: a batch of several operations, its wrappers, the collection's
name and what the driver adds are no more than a command may have. -/
def Roomy (added : ℕ) (p : PutMongoDb) (batch : List Operation) : Prop :=
  1 < batch.length →
    (batch.map Operation.size).sum + (42 + p.collection.utf8ByteSize + wrappers 0 batch.length) + added ≤
      maxCommandBytes

theorem withinLimits_iff {added : ℕ} {p : PutMongoDb} {batch : List Operation} :
    (1 < batch.length → WithinLimits added (p.command batch)) ↔ Roomy added p batch := by
  have hmessage : 21 + maxCommandBytes ≤ maxMessageBytes := by decide
  have hsize : (p.command batch).toDocument.size = (batch.map Operation.size).sum +
      (42 + p.collection.utf8ByteSize + wrappers 0 batch.length) := command_size _
  constructor
  · intro h hmany
    have hdocument := (h hmany).document
    rwa [hsize] at hdocument
  · intro h hmany
    have hroom := h hmany
    rw [← hsize] at hroom
    exact ⟨hroom, by omega⟩

namespace PutMongoDb

variable {p : PutMongoDb} {crate : Crate} {driver : Driver}

/-! ### Inserts -/

theorem insertFrom_sent {batches : List (List Document)} {summary : ℕ × ℕ} {sent : List Sent} :
    ∃ calls, (insertFrom driver batches summary sent).2 = sent ++ calls ∧
      calls <+: batches.map Sent.insertMany ∧
      ((insertFrom driver batches summary sent).1.isOk = true →
        calls = batches.map Sent.insertMany) := by
  induction batches generalizing summary sent with
  | nil => exact ⟨[], (List.append_nil _).symm, List.prefix_refl _, fun _ => rfl⟩
  | cons batch rest ih =>
    unfold insertFrom
    cases driver.insertMany sent.length batch with
    | error e =>
      exact ⟨[.insertMany batch], rfl, ⟨rest.map Sent.insertMany, rfl⟩, fun h => (by cases h)⟩
    | ok n =>
      obtain ⟨calls, hcalls, hfront, hall⟩ := @ih (summary.1 + n, summary.2 + 1)
        (sent ++ [.insertMany batch])
      refine ⟨.insertMany batch :: calls, ?_, List.cons_prefix_cons.mpr ⟨rfl, hfront⟩, fun h => ?_⟩
      · refine hcalls.trans ?_
        rw [List.append_assoc]
        rfl
      · rw [hall h]
        rfl

theorem insertMany_documents (batches : List (List Document)) :
    (batches.map Sent.insertMany).flatMap Sent.documents = batches.flatten := by
  rw [List.flatMap_map, List.flatMap]
  exact congrArg List.flatten (List.map_id batches)

theorem insertDocuments_batched {added : ℕ} {records : List Json} {documents : List Document} :
    WellBatched added p crate driver records documents (p.insertDocuments driver documents) := by
  unfold insertDocuments
  obtain ⟨calls, hcalls, hfront, hall⟩ := @insertFrom_sent driver (chunks p.batchSize documents) (0, 0) []
  rw [List.nil_append] at hcalls
  have hflatten : (chunks p.batchSize documents).flatten = documents :=
    chunks_flatten p.batchSize_pos documents
  have hno : ∀ first command, ¬ Sent.update first command ∈ calls := by
    intro first command hmem
    obtain ⟨batch, -, hbatch⟩ := List.mem_map.mp (hfront.subset hmem)
    cases hbatch
  refine ⟨?_, fun h => ?_, fun call hcall => ?_, fun first command hmem => ?_,
    fun front first command _ _ _ hlast => ?_⟩
  · rw [hcalls]
    have hdocuments := hfront.flatMap Sent.documents
    rwa [insertMany_documents, hflatten] at hdocuments
  · rw [hcalls, hall h, insertMany_documents, hflatten]
  · rw [hcalls] at hcall
    obtain ⟨batch, hbatch, rfl⟩ := List.mem_map.mp (hfront.subset hcall)
    exact ⟨ne_nil_of_mem_chunks p.batchSize_pos hbatch, length_of_mem_chunks hbatch⟩
  · rw [hcalls] at hmem
    exact absurd hmem (hno first command)
  · rw [hcalls] at hlast
    refine absurd ?_ (hno first command)
    rw [hlast]
    exact List.mem_append_right front List.mem_cons_self

/-! ### Upserts -/

theorem upsertDocuments_runs (documents : List Document) :
    Runs p crate driver 0 documents ⟨0, 0, [], 0, 0, []⟩ (p.upsertDocuments crate driver documents) :=
  upsertFrom_runs rfl rfl

/-- Where the driver refuses nothing, every batch is sent. -/
theorem upsertDocuments_all {documents : List Document}
    (hdriver : ∀ n command, driver.runCommand n command = .ok []) :
    (p.upsertDocuments crate driver documents).2 = p.commands 0 (p.batches crate documents) := by
  obtain ⟨calls, r, hcalls, hran, -, -, hdone⟩ := @upsertDocuments_runs p crate driver documents
  rw [hcalls, (hdone (hran.obliging hdriver)).1]
  rfl

theorem upsertReply_writeErrors {reply : Document} {error : Bson} {errors : List Bson}
    (h : reply.get "writeErrors" = some (.array (error :: errors))) (first : ℕ) :
    ∃ e, upsertReply reply first = .error e ∧
      (e = .databaseConnector (writeErrorMessage error errors (first + errorIndex error)) ∨
        e = .databaseRejected (writeErrorMessage error errors (first + errorIndex error))) := by
  unfold upsertReply
  rw [h]
  dsimp only
  split
  · exact ⟨_, rfl, .inl rfl⟩
  · exact ⟨_, rfl, .inr rfl⟩

theorem upsertDocuments_batched {added : ℕ} {records : List Json} {documents : List Document}
    (hdocuments : recordDocuments crate 0 records = .ok documents)
    (hroomy : ∀ batch ∈ p.batches crate documents, Roomy added p batch) :
    WellBatched added p crate driver records documents (p.upsertDocuments crate driver documents) := by
  obtain ⟨calls, r, hcalls, hran, hfront, herror, hdone⟩ :=
    @upsertDocuments_runs p crate driver documents
  change _ <+: p.commands 0 (p.batches crate documents) at hfront
  change _ = [] ++ calls at hcalls
  rw [List.nil_append] at hcalls
  obtain ⟨hflatten, hflattenAll⟩ := @batches_flatten p crate documents
  obtain ⟨hoperations, hoperationsAll⟩ := @operations_documents p crate 0 documents
  have hdocs := commands_documents (p := p) 0 (p.batches crate documents)
  refine ⟨?_, fun h => ?_, fun call hcall => ?_, fun first command hmem => ?_, ?_⟩
  · rw [hcalls]
    have hsent := hfront.flatMap Sent.documents
    rw [hdocs] at hsent
    exact hsent.trans ((hflatten.map Operation.document).trans hoperations)
  · have hnone : r = none := by
      cases r with
      | none => rfl
      | some e =>
        rw [herror e rfl] at h
        cases h
    have hgood := (hdone hnone).2 h
    have hall : calls = p.commands 0 (p.batches crate documents) := (hdone hnone).1
    rw [hcalls, hall, hdocs, hflattenAll hgood, hoperationsAll hgood]
  · rw [hcalls] at hcall
    obtain ⟨first, batch, -, hbatch, rfl⟩ := mem_commands (hfront.subset hcall)
    obtain ⟨hne, hlength⟩ := batch_length hbatch
    refine ⟨fun hnil => hne (List.map_eq_nil_iff.mp hnil), ?_⟩
    change (batch.map Operation.document).length ≤ p.batchSize
    rw [List.length_map]
    exact hlength
  · rw [hcalls] at hmem
    obtain ⟨first', batch, -, hbatch, heq⟩ := mem_commands (hfront.subset hmem)
    cases heq
    exact withinLimits_iff.mpr (hroomy batch hbatch)
  · intro front first command reply error errors hlast hreply hwriteErrors o ho
    rw [hcalls] at hlast
    rw [hlast] at hran hfront
    have hmem : Sent.update first command ∈ p.commands 0 (p.batches crate documents) :=
      hfront.subset (List.mem_append_right front List.mem_cons_self)
    obtain ⟨first', batch, hlocated, -, heq⟩ := mem_commands hmem
    cases heq
    have hitem := (located_item hlocated ho).2
    rw [Nat.sub_zero] at hitem
    have hoperation := getElem?_of_prefix (hflatten.trans List.prefix_rfl) hitem
    have hdocument : documents[first + errorIndex error]? = some o.document := by
      refine getElem?_of_prefix hoperations ?_
      rw [List.getElem?_map, hoperation]
      rfl
    obtain ⟨record, hrecord, hconverted⟩ := recordDocuments_item hdocuments hdocument
    rw [Nat.zero_add] at hconverted
    obtain ⟨e, hresult, hmessage⟩ := upsertReply_writeErrors hwriteErrors first
    have hcount : (0 : ℕ) + front.length = front.length := Nat.zero_add _
    rcases hran.last with ⟨reply', k, hreply', haccepted⟩ | ⟨e', hr, hfailed⟩
    · rw [List.length_nil, hcount, hreply] at hreply'
      cases hreply'
      rw [hresult] at haccepted
      cases haccepted
    · rw [List.length_nil, hcount] at hfailed
      refine ⟨record, e, hrecord, hconverted, hmessage, ?_⟩
      rw [herror e' hr]
      rcases hfailed with hfailed | ⟨reply', hreply', hfailed⟩
      · rw [hreply] at hfailed
        cases hfailed
      · rw [hreply] at hreply'
        cases hreply'
        rw [hresult] at hfailed
        cases hfailed
        rfl

end PutMongoDb

theorem writeRecords_ok {p : PutMongoDb} {crate : Crate} {records : List Json} {documents : List Document}
    (hdocuments : PutMongoDb.recordDocuments crate 0 records = .ok documents) (driver : Driver) :
    (p.mode = .insert → p.writeRecords crate driver records = p.insertDocuments driver documents) ∧
      (p.mode = .upsert →
        p.writeRecords crate driver records = p.upsertDocuments crate driver documents) := by
  unfold PutMongoDb.writeRecords
  rw [hdocuments]
  refine ⟨fun hmode => ?_, fun hmode => ?_⟩
  · rw [hmode]
  · rw [hmode]

/-- A driver that refuses nothing shows every batch. -/
def obliging : Driver := ⟨fun _ _ => .ok 0, fun _ _ => .ok []⟩

theorem roomy_of_batched {added : ℕ} {p : PutMongoDb} {crate : Crate} {records : List Json}
    {documents : List Document} (hdocuments : PutMongoDb.recordDocuments crate 0 records = .ok documents)
    (hmode : p.mode = .upsert)
    (h : WellBatched added p crate obliging records documents (p.writeRecords crate obliging records))
    {batch : List Operation} (hbatch : batch ∈ p.batches crate documents) : Roomy added p batch := by
  rw [(writeRecords_ok hdocuments obliging).2 hmode] at h
  rw [← located_batches 0 (p.batches crate documents)] at hbatch
  obtain ⟨b, hb, rfl⟩ := List.mem_map.mp hbatch
  refine withinLimits_iff.mp fun hmany => h.fits b.1 (p.command b.2) ?_ hmany
  rw [PutMongoDb.upsertDocuments_all fun _ _ => rfl]
  exact List.mem_map_of_mem (f := fun b => Sent.update b.1 (p.command b.2)) hb

/-- Batches of a moderate number of operations always leave room. -/
theorem roomy_of_batchSize {added : ℕ} {p : PutMongoDb} {crate : Crate} {documents : List Document}
    (hsmall : 27 * p.batchSize + 42 + p.collection.utf8ByteSize + added ≤ 1064960)
    {batch : List Operation} (hbatch : batch ∈ p.batches crate documents) : Roomy added p batch := by
  intro hmany
  have hbytes := PutMongoDb.batch_bytes hbatch hmany
  have hlength := (PutMongoDb.batch_length hbatch).2
  have hwrappers : wrappers 0 batch.length ≤ 27 * batch.length := wrappers_le (by omega)
  have hcommand : upsertCommandBytes = 15728640 := rfl
  have hlimit : maxCommandBytes = 16793600 := rfl
  omega

/-! ### Many small documents -/

def sampleWriter (batchSize : ℕ) (h : 0 < batchSize) : PutMongoDb where
  connection := "mongo"
  collection := "customers"
  mode := .upsert
  keyFields := ["_id"]
  batchSize := batchSize
  ordered := true
  batchSize_pos := h
  keyed := fun _ => List.cons_ne_nil _ _

mutual

/-- Plain values, without Extended JSON. -/
def plainBson : Json → Bson
  | .null => .null
  | .bool b => .boolean b
  | .number (.posInt n) => .int32 n
  | .number (.negInt n) => .int32 n
  | .number (.float text) => .double text
  | .string s => .string s
  | .array items => .array (plainItems items)
  | .object fields => .document (plainFields fields)

def plainItems : List Json → List Bson
  | [] => []
  | value :: rest => plainBson value :: plainItems rest

def plainFields : List (String × Json) → Document
  | [] => []
  | (key, value) :: rest => (key, plainBson value) :: plainFields rest

end

def sampleCrate : Crate := ⟨fun value => .ok (plainBson value), fun _ => none⟩

def sampleRecord : Json := .object [("_id", .number (.posInt 1))]

def sampleDocument : Document := [("_id", .int32 1)]

def sampleOperation : Operation := ⟨sampleDocument, sampleDocument⟩

theorem recordDocuments_replicate (index count : ℕ) :
    PutMongoDb.recordDocuments sampleCrate index (List.replicate count sampleRecord) =
      .ok (List.replicate count sampleDocument) := by
  induction count generalizing index with
  | zero => rfl
  | succ count ih =>
    have hrecord : recordDocument sampleCrate sampleRecord ("put_mongodb record " ++ toString index) =
        .ok sampleDocument := rfl
    rw [List.replicate_succ, PutMongoDb.recordDocuments, ih, hrecord]
    rfl

theorem operations_replicate {batchSize : ℕ} (h : 0 < batchSize) (index count : ℕ) :
    (sampleWriter batchSize h).operations sampleCrate index (List.replicate count sampleDocument) =
      (List.replicate count sampleOperation, none) := by
  induction count generalizing index with
  | zero => rfl
  | succ count ih =>
    have hvalue : valueAtPath sampleDocument "_id" = some (.int32 1) := rfl
    have hfilter : (sampleWriter batchSize h).upsertFilter sampleDocument index = .ok sampleDocument := by
      rw [PutMongoDb.upsertFilter, sampleWriter, List.foldlM_cons, PutMongoDb.addKey, hvalue]
      rfl
    have hoperation : (sampleWriter batchSize h).operation sampleCrate index sampleDocument =
        .ok sampleOperation := by
      rw [PutMongoDb.operation, hfilter]
      rfl
    rw [List.replicate_succ, PutMongoDb.operations, hoperation, ih]
    rfl

/-- Half a million of the smallest documents are one batch. -/
theorem batches_replicate {count : ℕ} (h : 0 < count) (hcount : count ≤ 500000) :
    (sampleWriter count h).batches sampleCrate (List.replicate count sampleDocument) =
      [List.replicate count sampleOperation] := by
  rw [PutMongoDb.batches, PutMongoDb.batchesFrom, operations_replicate h]
  refine cutFrom_together (fun before o after hitems => ?_) ?_
  · have hall : ∀ x ∈ before ++ o :: after, x = sampleOperation := by
      intro x hx
      rw [← hitems] at hx
      exact List.eq_of_mem_replicate hx
    have hlength := congrArg List.length hitems
    rw [List.length_replicate, List.length_append, List.length_cons] at hlength
    have hbefore : before = List.replicate before.length sampleOperation :=
      List.eq_replicate_of_mem fun x hx => hall x (List.mem_append_left _ hx)
    have ho : o = sampleOperation := hall o (List.mem_append_right _ List.mem_cons_self)
    have hsize : sampleOperation.size = 28 := rfl
    have hsum : (before.map Operation.size).sum = before.length * 28 := by
      rw [hbefore, List.map_replicate, hsize, List.sum_replicate_nat, List.length_replicate]
    have hlimit : upsertCommandBytes = 15728640 := rfl
    rw [List.nil_append, PutMongoDb.full, hsum, ho, hsize, Bool.or_eq_false_iff, beq_eq_false_iff_ne,
      decide_eq_false_iff_not]
    refine ⟨?_, by omega⟩
    change before.length ≠ count
    omega
  · intro hnil
    have hlength := congrArg List.length hnil
    rw [List.nil_append, List.length_replicate, List.length_nil] at hlength
    omega

theorem not_roomy_replicate {count : ℕ} (h : 0 < count) (hcount : 400000 ≤ count) :
    ¬ Roomy 0 (sampleWriter count h) (List.replicate count sampleOperation) := by
  intro hroom
  have hsize : sampleOperation.size = 28 := rfl
  have hlimit : maxCommandBytes = 16793600 := rfl
  have hwrappers := wrappers_ge 0 count
  have hmany : 1 < (List.replicate count sampleOperation).length := by
    rw [List.length_replicate]
    omega
  have hbytes := hroom hmany
  rw [List.length_replicate, List.map_replicate, List.sum_replicate_nat, hsize] at hbytes
  omega

end Jaiba.Mongo
