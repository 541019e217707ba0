import ProofMarket.Coordinator.Persistence
import ProofMarket.Lib.Hex
import ProofMarket.Lib.JsonEncoding

/-!
# The snapshot file

`save_jobs` writes the cloned entries with `to_string_pretty`, and `load_jobs` reads them with
`from_str`. The encodings are the derived ones: a struct is an object, an identifier is the array of
its bytes, a unit variant is its name and any other variant an object with its name as the only key.
An `Address` is a hexadecimal string.

* `decodeFile_encodeFile` — **the entries that were written are read back.**
* `snapshot_round_trip` — **the map that is saved is the map that is loaded**, in every run.
-/

namespace ProofMarket

open Registry (Deployment)

namespace Snapshot

open Json (Encoding)

/-! ## Encodings -/

def u8 : Encoding UInt8 :=
  .number UInt8.toNat (fun n => if n < 2 ^ 8 then some (.ofNat n) else none) fun b => by
    rw [if_pos b.toNat_lt, UInt8.ofNat_toNat]

def u64 : Encoding UInt64 :=
  .number UInt64.toNat (fun n => if n < 2 ^ 64 then some (.ofNat n) else none) fun n => by
    rw [if_pos n.toNat_lt, UInt64.ofNat_toNat]

def u128 : Encoding (BitVec 128) :=
  .number BitVec.toNat (fun n => if n < 2 ^ 128 then some (.ofNat 128 n) else none) fun n => by
    rw [if_pos n.isLt, BitVec.ofNat_toNat, BitVec.setWidth_eq]

/-- `Vec<u8>`. -/
def bytes : Encoding Bytes := .list u8

/-- A byte string of the right length. -/
def toFixed (n : Nat) (b : Bytes) : Option (FixedBytes n) :=
  if h : b.length = n then some ⟨b, h⟩ else none

theorem toFixed_val {n : Nat} (b : FixedBytes n) : toFixed n b.val = some b :=
  dif_pos b.length_eq

/-- `[u8; n]`. -/
def fixedBytes (n : Nat) : Encoding (FixedBytes n) :=
  bytes.through FixedBytes.val (toFixed n) toFixed_val

def jobId : Encoding JobId := (fixedBytes 32).through JobId.bytes (some ∘ .mk) fun _ => rfl

def peerId : Encoding PeerId := (fixedBytes 32).through PeerId.bytes (some ∘ .mk) fun _ => rfl

def txHash : Encoding TxHash := (fixedBytes 32).through TxHash.bytes (some ∘ .mk) fun _ => rfl

/-- The digits of an address, after `0x` if it is there. -/
def parseAddress (cs : List Char) : Option Address := do
  let bytes ← Hex.decode (match cs with | '0' :: 'x' :: digits => digits | digits => digits)
  let bytes ← toFixed 20 bytes
  return ⟨bytes⟩

theorem plainChar_digit : ∀ n < 16, Json.plainChar (Hex.digit n) = true := by
  decide

theorem plainChar_digits (bs : Bytes) : (Hex.digits bs).all Json.plainChar = true := by
  rw [List.all_eq_true]
  intro c hc
  obtain ⟨b, -, hb⟩ := List.mem_flatMap.1 hc
  have hlt := b.toNat_lt
  rcases List.mem_pair.1 hb with rfl | rfl
  · exact plainChar_digit _ (by omega)
  · exact plainChar_digit _ (by omega)

def address : Encoding Address :=
  .text (fun a => '0' :: 'x' :: Hex.digits a.bytes.val) parseAddress
    (fun a => plainChar_digits a.bytes.val) fun a => by
      simp [parseAddress, Hex.decode_digits, toFixed_val]

/-! ## Jobs -/

/-- A variant with fields. -/
def variant (name : String) (fields : List (List Char × Json)) : Json :=
  .obj [(name.toList, .obj fields)]

def statusToJson : JobStatus → Json
  | .pending => .str "Pending".toList
  | .assigned worker assignedAt =>
    variant "Assigned" [("worker".toList, peerId.toJson worker),
      ("assigned_at".toList, u64.toJson assignedAt)]
  | .proving => .str "Proving".toList
  | .completed hash => variant "Completed" [("tx_hash".toList, txHash.toJson hash)]
  | .failed reason => variant "Failed" [("reason".toList, bytes.toJson reason)]
  | .expired => .str "Expired".toList

/-- The forms that `statusToJson` writes, with the fields of a variant in any order. `from_str` also
takes a unit variant from an object with the value `null`, and the fields of a variant from an
array; both are refused here. -/
def statusOfJson : Json → Option JobStatus
  | .str name =>
    if name = "Pending".toList then some .pending
    else if name = "Proving".toList then some .proving
    else if name = "Expired".toList then some .expired
    else none
  | .obj [(name, .obj fields)] =>
    if name = "Assigned".toList then do
      let worker ← peerId.field "worker" fields
      let assignedAt ← u64.field "assigned_at" fields
      return .assigned worker assignedAt
    else if name = "Completed".toList then do
      let hash ← txHash.field "tx_hash" fields
      return .completed hash
    else if name = "Failed".toList then do
      let reason ← bytes.field "reason" fields
      return .failed reason
    else none
  | _ => none

theorem plain_status (status : JobStatus) : (statusToJson status).Plain := by
  cases status with
  | pending | proving | expired =>
    rw [statusToJson, Json.Plain]
    decide
  | assigned worker assignedAt =>
    simp only [statusToJson, variant, Json.Plain, Json.PlainFields, Json.PlainField]
    exact ⟨⟨by decide, ⟨by decide, peerId.plain worker⟩, ⟨by decide, u64.plain assignedAt⟩,
      trivial⟩, trivial⟩
  | completed hash =>
    simp only [statusToJson, variant, Json.Plain, Json.PlainFields, Json.PlainField]
    exact ⟨⟨by decide, ⟨by decide, txHash.plain hash⟩, trivial⟩, trivial⟩
  | failed reason =>
    simp only [statusToJson, variant, Json.Plain, Json.PlainFields, Json.PlainField]
    exact ⟨⟨by decide, ⟨by decide, bytes.plain reason⟩, trivial⟩, trivial⟩

theorem statusOfJson_toJson (status : JobStatus) :
    statusOfJson (statusToJson status) = some status := by
  cases status with
  | pending | proving | expired => rfl
  | assigned | completed | failed =>
    simp [statusToJson, variant, statusOfJson, Encoding.field, Json.field, Encoding.ofJson_toJson]

def jobStatus : Encoding JobStatus :=
  ⟨statusToJson, statusOfJson, plain_status, statusOfJson_toJson⟩

def jobToJson (job : Job) : Json :=
  .obj [("id".toList, jobId.toJson job.id),
    ("job_status".toList, jobStatus.toJson job.jobStatus),
    ("owner".toList, address.toJson job.owner),
    ("payload".toList, bytes.toJson job.payload),
    ("reward".toList, u128.toJson job.reward),
    ("created_at".toList, u64.toJson job.createdAt),
    ("deadline".toList, u64.toJson job.deadline)]

/-- An object with these fields in any order. `from_str` also takes the fields from an array, in the
order of the struct, and an `owner` that is an array of bytes; both are refused here. -/
def jobOfJson : Json → Option Job
  | .obj fields => do
    let id ← jobId.field "id" fields
    let status ← jobStatus.field "job_status" fields
    let owner ← address.field "owner" fields
    let payload ← bytes.field "payload" fields
    let reward ← u128.field "reward" fields
    let createdAt ← u64.field "created_at" fields
    let deadline ← u64.field "deadline" fields
    return ⟨id, status, owner, payload, reward, createdAt, deadline⟩
  | _ => none

theorem plain_job (job : Job) : (jobToJson job).Plain := by
  simp only [jobToJson, Json.Plain, Json.PlainFields, Json.PlainField]
  exact ⟨⟨by decide, jobId.plain job.id⟩, ⟨by decide, jobStatus.plain job.jobStatus⟩,
    ⟨by decide, address.plain job.owner⟩, ⟨by decide, bytes.plain job.payload⟩,
    ⟨by decide, u128.plain job.reward⟩, ⟨by decide, u64.plain job.createdAt⟩,
    ⟨by decide, u64.plain job.deadline⟩, trivial⟩

theorem jobOfJson_toJson (job : Job) : jobOfJson (jobToJson job) = some job := by
  simp [jobToJson, jobOfJson, Encoding.field, Json.field, Encoding.ofJson_toJson]

def job : Encoding Job := ⟨jobToJson, jobOfJson, plain_job, jobOfJson_toJson⟩

/-! ## The file -/

/-- `serde_json::to_string_pretty(&entries)`. -/
def encodeFile (entries : List Job) : List Char := (Encoding.list job).write entries

/-- What `load_jobs` reads: `none` when there is no file, when it is empty, and when it cannot be
parsed. -/
def decodeFile (file : Option (List Char)) : Option (List Job) := do
  let data ← file
  if data = [] then none else (Encoding.list job).read data

/-- **The entries that were written are read back.** -/
theorem decodeFile_encodeFile (entries : List Job) :
    decodeFile (some (encodeFile entries)) = some entries := by
  have hread : (Encoding.list job).read (encodeFile entries) = some entries :=
    (Encoding.list job).read_write entries
  unfold decodeFile
  rw [Option.bind_eq_bind, Option.bind_some, if_neg, hread]
  intro hempty
  rw [hempty] at hread
  cases hread

end Snapshot

/-! ## Saving and loading a map -/

open Persistence (loadJobs lookup_loadJobs mem_of_lookup_loadJobs)
open Snapshot (encodeFile decodeFile decodeFile_encodeFile)

namespace JobMap

/-- The order in which an iteration visits a map: every entry once. -/
structure Visits (m : JobMap) (entries : List (JobId × Job)) : Prop where
  nodup : (entries.map Prod.fst).Nodup
  mem_iff : ∀ j job, (j, job) ∈ entries ↔ m.lookup j = some job

theorem visits_singleton (k : JobId) (job : Job) :
    JobMap.Visits (Finmap.singleton k job) [(k, job)] where
  nodup := List.nodup_singleton _
  mem_iff j other := by
    rw [List.mem_singleton, Prod.mk.injEq]
    by_cases hj : j = k
    · subst hj
      simp [eq_comm]
    · simp [hj, Finmap.lookup_eq_none.2]

theorem keyed_singleton (job : Job) : Keyed (Finmap.singleton job.id job) := by
  intro j other hj
  obtain ⟨rfl, rfl⟩ := Prod.mk.inj
    (List.mem_singleton.1 (((visits_singleton job.id job).mem_iff j other).2 hj))
  rfl

/-- The jobs of a map, loaded, are the map. -/
theorem Visits.loadJobs_eq {m : JobMap} {entries : List (JobId × Job)} (hm : m.Keyed)
    (h : m.Visits entries) : loadJobs (some (entries.map Prod.snd)) = m := by
  have hids : (entries.map Prod.snd).map Job.id = entries.map Prod.fst := by
    rw [List.map_map]
    refine List.map_congr_left fun entry hentry => ?_
    exact hm entry.1 entry.2 ((h.mem_iff entry.1 entry.2).1 hentry)
  have hnodup : ((entries.map Prod.snd).map Job.id).Nodup := hids ▸ h.nodup
  apply Finmap.ext_lookup
  intro j
  cases hj : m.lookup j with
  | some job =>
    have hmem : job ∈ entries.map Prod.snd :=
      List.mem_map_of_mem ((h.mem_iff j job).2 hj)
    rw [← hm j job hj]
    exact lookup_loadJobs hnodup hmem
  | none =>
    cases hload : (loadJobs (some (entries.map Prod.snd))).lookup j with
    | none => rfl
    | some job =>
      obtain ⟨_, heq, hmem, hid⟩ := mem_of_lookup_loadJobs hload
      cases heq
      obtain ⟨⟨k, other⟩, hentry, rfl⟩ := List.mem_map.1 hmem
      have hk : m.lookup k = some other := (h.mem_iff k other).1 hentry
      rw [← hid, hm k other hk, hk] at hj
      cases hj

end JobMap

namespace Host

/-- A machine on which no coordinator runs, with the file that an earlier one may have left. -/
def off (chain : Chain) (defaultDeadlineSecs : UInt64) (file : Option (List Char)) : Host :=
  ⟨.down, idle chain false defaultDeadlineSecs ∅, decodeFile file, none⟩

/-- **The map that is saved is the map that is loaded**: in every run, whatever the file it began
with, each job is stored under its own id, and the file of an iteration in any order holds the
map. -/
theorem snapshot_round_trip (D : Deployment) (chain : Chain) (defaultDeadlineSecs : UInt64)
    (file : Option (List Char)) (s : Host)
    (h : Steps D Transition.Any (off chain defaultDeadlineSecs file) s) :
    s.backend.jobs.Keyed ∧ ∀ entries, s.backend.jobs.Visits entries →
      loadJobs (decodeFile (some (encodeFile (entries.map Prod.snd)))) = s.backend.jobs := by
  have hkeyed : s.backend.jobs.Keyed :=
    Transition.Steps.invariant (I := fun s => s.backend.jobs.Keyed)
      (fun _ _ _ hs _ hst => (Step.of_step hst).keyed hs) h (Persistence.keyed_loadJobs none)
  refine ⟨hkeyed, ?_⟩
  intro entries hentries
  rw [decodeFile_encodeFile]
  exact hentries.loadJobs_eq hkeyed

section Example

open Sample

/-- A job is created and claimed; the coordinator saves its map, crashes and loads it. -/
def claimedAndSaved : List Label :=
  [.start true, .createIndexer, .process (.create request nonce 1000), .process (.insert job),
    .process (.recv (.claimJob jobId ⟨.fill 32 9⟩) 1001 true),
    .saveBegin, .saveEntry jobId, .saveCommit, .crash, .start true]

def claimed : Job := { job with jobStatus := .assigned ⟨.fill 32 9⟩ 1001 }

theorem snapshot_round_trip_claimed :
    ∃ s, Steps deployment Transition.Any (off (Chain.after deployment 0 []) 300 none) s ∧
      s.backend.jobs.status jobId = some (.assigned ⟨.fill 32 9⟩ 1001) ∧
        loadJobs (decodeFile (some (encodeFile [claimed]))) = s.backend.jobs := by
  have hrun : (Transition.run (step deployment) claimedAndSaved
      (off (Chain.after deployment 0 []) 300 none)).map
        (fun s => decide (s.backend.jobs = Finmap.singleton claimed.id claimed ∧
          s.backend.jobs.status jobId = some (.assigned ⟨.fill 32 9⟩ 1001))) = some true := by
    decide +kernel
  obtain ⟨s, hs, hst⟩ := Transition.exists_of_run (fun _ _ _ => trivial) hrun
  obtain ⟨hjobs, hstatus⟩ := of_decide_eq_true hst
  refine ⟨s, hs, hstatus, ?_⟩
  have hsaved := (snapshot_round_trip deployment _ 300 none s hs).2 [(claimed.id, claimed)]
    (hjobs ▸ JobMap.visits_singleton claimed.id claimed)
  exact hsaved

end Example

theorem run_saveEntry {D : Deployment} {s : Host} {keys : Finset JobId}
    {done todo : List (JobId × Job)} (hnodup : ((done ++ todo).map Prod.fst).Nodup)
    (hmem : ∀ entry ∈ todo, s.backend.jobs.lookup entry.1 = some entry.2) :
    Transition.run (step D) (todo.map fun entry => .saveEntry entry.1)
      { s with saving := some ⟨keys, done⟩ } =
        some { s with saving := some ⟨keys, done ++ todo⟩ } := by
  induction todo generalizing done with
  | nil => simp [Transition.run]
  | cons entry todo ih =>
    have hlook := hmem entry List.mem_cons_self
    have hnew : entry.1 ∉ done.map Prod.fst := by
      rw [List.map_append, List.map_cons, List.nodup_append'] at hnodup
      exact fun hdone => hnodup.2.2 hdone List.mem_cons_self
    have hstep : step D { s with saving := some ⟨keys, done⟩ } (.saveEntry entry.1) =
        some { s with saving := some ⟨keys, done ++ [entry]⟩ } := by
      simp only [step, hlook, if_neg hnew]
    have hnodup' : (((done ++ [entry]) ++ todo).map Prod.fst).Nodup := by
      rwa [List.append_assoc]
    have hrest := ih hnodup' fun other hother => hmem other (List.mem_cons_of_mem _ hother)
    rw [List.append_assoc] at hrest
    rw [List.map_cons, Transition.run, hstep]
    exact hrest

/-- `save_jobs` while no other task writes: it clones the entries in some order and replaces the
file. -/
theorem run_save {D : Deployment} {s : Host} (hphase : s.phase ≠ .down) (hidle : s.saving = none)
    {entries : List (JobId × Job)} (h : s.backend.jobs.Visits entries) :
    Transition.run (step D)
      (.saveBegin :: (entries.map (fun entry => .saveEntry entry.1) ++ [.saveCommit])) s =
        some { s with snapshot := some (entries.map Prod.snd) } := by
  have hbegin : step D s .saveBegin =
      some { s with saving := some ⟨s.backend.jobs.keys, []⟩ } := by
    simp [step, hphase, hidle]
  have hentries : Transition.run (step D) (entries.map fun entry => .saveEntry entry.1)
      { s with saving := some ⟨s.backend.jobs.keys, []⟩ } =
        some { s with saving := some ⟨s.backend.jobs.keys, entries⟩ } :=
    run_saveEntry h.nodup fun entry hentry => (h.mem_iff entry.1 entry.2).1 hentry
  have hall : ∀ j ∈ s.backend.jobs.keys, j ∈ entries.map Prod.fst := by
    intro j hj
    obtain ⟨job, hjob⟩ := Finmap.mem_iff.1 (Finmap.mem_keys.1 hj)
    exact List.mem_map_of_mem (f := Prod.fst) ((h.mem_iff j job).2 hjob)
  have hcommit : step D { s with saving := some ⟨s.backend.jobs.keys, entries⟩ } .saveCommit =
      some { s with snapshot := some (entries.map Prod.snd), saving := none } := by
    simp only [step, if_pos hall]
  rw [Transition.run, hbegin, Option.bind_some, Transition.run_append, hentries, Option.bind_some,
    Transition.run, hcommit, ← hidle]
  rfl

end Host

end ProofMarket
