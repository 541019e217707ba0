import ProofMarket.Coordinator.Snapshot

/-!
# The two files of a snapshot

`save_jobs` writes the encoded jobs to a temporary file and renames it over the snapshot. The
process may crash, and a call may fail, before and after every step: with the temporary file not
created, written in part, or complete. The next call truncates whatever an earlier one left there.

**Theorem (`load_live`).** In every run `load_jobs` finds no snapshot, when no save has come to its
rename, or restores the jobs of the last save that has. It never finds a file that it cannot parse.

The invariant (`Inv`): the snapshot is the whole text of the last save that was renamed, and what
has been written to the temporary file of a save under way is the text of that save up to what is
still to be written.
-/

namespace ProofMarket

open Persistence (loadJobs)
open Snapshot (encodeFile decodeFile)

namespace Disk

/-- How `load_jobs` ends. -/
inductive Loaded where
  | noSnapshot
  | unparsable
  | restored (jobs : JobMap)

/-- The map it returns. -/
def Loaded.jobs : Loaded → JobMap
  | .noSnapshot | .unparsable => ∅
  | .restored jobs => jobs

/-- `load_jobs`, from what is at its path. -/
def load (file : Option (List Char)) : Loaded :=
  match file with
  | none => .noSnapshot
  | some data =>
    if data = [] then .noSnapshot
    else match (Json.Encoding.list Snapshot.job).read data with
      | some entries => .restored (loadJobs (some entries))
      | none => .unparsable

theorem jobs_load (file : Option (List Char)) :
    (load file).jobs = loadJobs (decodeFile file) := by
  cases file with
  | none => rfl
  | some data =>
    unfold load decodeFile
    dsimp only [Option.bind_eq_bind, Option.bind_some]
    split_ifs with hempty
    · rfl
    · cases (Json.Encoding.list Snapshot.job).read data <;> rfl

/-- A call of `save_jobs`: its map, and the entries in the order in which the iteration visits
them. -/
structure Save where
  jobs : JobMap
  entries : List (JobId × Job)

/-- What is written. -/
def Save.text (call : Save) : List Char := encodeFile (call.entries.map Prod.snd)

/-- How far a call has come: it has encoded its jobs, or it has created the temporary file and has
`rest` still to write. -/
inductive Stage where
  | encoded
  | writing (rest : List Char)

/-- The two files and the process; `renamed` is the last call that came to its rename. -/
structure Files where
  live : Option (List Char)
  temp : Option (List Char)
  up : Bool
  saving : Option (Save × Stage)
  renamed : Option Save

inductive Label where
  | restart
  | crash
  | save (call : Save)
  | create
  | write (n : Nat)
  | rename
  | fail

namespace Files

/-- Nothing has been saved; what is left of a temporary file may be there. -/
def start (temp : Option (List Char)) : Files := ⟨none, temp, false, none, none⟩

def step (s : Files) : Label → Option Files
  | .restart => if s.up then none else some { s with up := true }
  | .crash => if s.up then some { s with up := false, saving := none } else none
  | .save call =>
    if s.up && s.saving.isNone then some { s with saving := some (call, .encoded) } else none
  | .create =>
    match s.saving with
    | some (call, .encoded) =>
      some { s with temp := some [], saving := some (call, .writing call.text) }
    | _ => none
  | .write n =>
    match s.saving with
    | some (call, .writing rest) =>
      some { s with
        temp := s.temp.map (· ++ rest.take n)
        saving := some (call, .writing (rest.drop n)) }
    | _ => none
  | .rename =>
    match s.saving with
    | some (call, .writing []) =>
      some { s with live := s.temp, temp := none, saving := none, renamed := some call }
    | _ => none
  | .fail => if s.saving.isSome then some { s with saving := none } else none

/-- An iteration visits every entry of its map once. -/
def Iterates (_ : Files) : Label → Prop
  | .save call => call.jobs.Visits call.entries
  | _ => True

/-- Runs of any saves, failures and crashes. -/
abbrev Steps : Files → Files → Prop := Transition.Steps step Iterates

/-- The ways a step can go, with what each requires. -/
inductive Step (s : Files) : Label → Files → Prop where
  | restart : s.up = false → Step s .restart { s with up := true }
  | crash : Step s .crash { s with up := false, saving := none }
  | save {call : Save} : s.saving = none →
      Step s (.save call) { s with saving := some (call, .encoded) }
  | create {call : Save} : s.saving = some (call, .encoded) →
      Step s .create { s with temp := some [], saving := some (call, .writing call.text) }
  | write {call : Save} {rest : List Char} {n : Nat} : s.saving = some (call, .writing rest) →
      Step s (.write n) { s with
        temp := s.temp.map (· ++ rest.take n)
        saving := some (call, .writing (rest.drop n)) }
  | rename {call : Save} : s.saving = some (call, .writing []) →
      Step s .rename
        { s with live := s.temp, temp := none, saving := none, renamed := some call }
  | fail : Step s .fail { s with saving := none }

variable {s s' : Files} {l : Label}

/-- **Every step goes in one of these ways.** -/
theorem Step.of_step (h : s.step l = some s') : Step s l s' := by
  cases l with
  | restart =>
    simp only [step] at h
    split_ifs at h with hup
    cases h
    exact .restart (by simpa using hup)
  | crash =>
    simp only [step] at h
    split_ifs at h
    cases h
    exact .crash
  | save call =>
    simp only [step] at h
    split_ifs at h with hidle
    cases h
    exact .save (by simp_all)
  | create =>
    simp only [step] at h
    split at h
    · rename_i hsaving
      cases h
      exact .create hsaving
    · cases h
  | write n =>
    simp only [step] at h
    split at h
    · rename_i hsaving
      cases h
      exact .write hsaving
    · cases h
  | rename =>
    simp only [step] at h
    split at h
    · rename_i hsaving
      cases h
      exact .rename hsaving
    · cases h
  | fail =>
    simp only [step] at h
    split_ifs at h
    cases h
    exact .fail

/-! ## The invariant -/

/-- The temporary file holds the text of the call under way, up to what is still to be written. -/
def Writes (s : Files) (call : Save) : Stage → Prop
  | .encoded => True
  | .writing rest => ∃ done, s.temp = some done ∧ done ++ rest = call.text

structure Inv (s : Files) : Prop where
  live : s.live = s.renamed.map Save.text
  writes : ∀ call stage, s.saving = some (call, stage) →
    call.jobs.Visits call.entries ∧ s.Writes call stage
  visits : ∀ call, s.renamed = some call → call.jobs.Visits call.entries

theorem inv_start (temp : Option (List Char)) : Inv (start temp) :=
  ⟨rfl, by simp [start], by simp [start]⟩

theorem Inv.idle (h : Inv s) (up : Bool) : Inv { s with up, saving := none } :=
  ⟨h.live, by simp, h.visits⟩

theorem Inv.step (h : Inv s) (hl : Iterates s l) (hstep : Step s l s') : Inv s' := by
  cases hstep with
  | restart => exact ⟨h.live, h.writes, h.visits⟩
  | crash => exact h.idle false
  | fail => exact h.idle s.up
  | save =>
    refine ⟨h.live, ?_, h.visits⟩
    intro call stage hsaving
    cases hsaving
    exact ⟨hl, trivial⟩
  | @create call hsaving =>
    refine ⟨h.live, ?_, h.visits⟩
    intro call' stage hcall
    cases hcall
    exact ⟨(h.writes call _ hsaving).1, [], rfl, rfl⟩
  | @write call rest n hsaving =>
    obtain ⟨hvisits, done, htemp, htext⟩ := h.writes call _ hsaving
    refine ⟨h.live, ?_, h.visits⟩
    intro call' stage hcall
    cases hcall
    refine ⟨hvisits, done ++ rest.take n, by simp [htemp], ?_⟩
    rw [List.append_assoc, List.take_append_drop, htext]
  | @rename call hsaving =>
    -- Nothing is left to write, so the file that replaces the snapshot is complete.
    obtain ⟨hvisits, done, htemp, htext⟩ := h.writes call _ hsaving
    rw [List.append_nil] at htext
    refine ⟨by rw [htemp, htext]; rfl, by simp, ?_⟩
    intro call' hcall
    cases hcall
    exact hvisits

theorem inv_of_steps {temp : Option (List Char)} (h : Steps (start temp) s) : Inv s :=
  Transition.Steps.invariant (I := Inv)
    (fun _ _ _ hs hl hst => hs.step hl (Step.of_step hst)) h (inv_start temp)

/-! ## Loading -/

theorem load_text (call : Save) :
    load (some call.text) = .restored (loadJobs (some (call.entries.map Prod.snd))) := by
  have hread : (Json.Encoding.list Snapshot.job).read call.text =
      some (call.entries.map Prod.snd) := (Json.Encoding.list Snapshot.job).read_write _
  have hne : call.text ≠ [] := by
    intro hempty
    rw [hempty] at hread
    cases hread
  simp only [load, if_neg hne, hread]

/-- **Only a rename changes what is loaded**, from one list of jobs to another: for the runs of the
coordinator a save is one step. -/
theorem Inv.snapshot_step (h : Inv s) (hstep : Step s l s') :
    decodeFile s'.live = decodeFile s.live ∨
      l = .rename ∧ ∃ call stage, s.saving = some (call, stage) ∧
        decodeFile s'.live = some (call.entries.map Prod.snd) := by
  cases hstep with
  | @rename call hsaving =>
    obtain ⟨-, done, htemp, htext⟩ := h.writes call _ hsaving
    rw [List.append_nil] at htext
    refine .inr ⟨rfl, call, _, hsaving, ?_⟩
    show decodeFile s.temp = _
    rw [htemp, htext]
    exact Snapshot.decodeFile_encodeFile _
  | _ => exact .inl rfl

/-- **A crash leaves the snapshot whole.** Whatever failed or crashed, and wherever, `load_jobs`
finds no snapshot if no save has come to its rename, and otherwise restores the jobs of the last one
that has, each under its own id. If that is where its map had them, it restores the map. -/
theorem load_live (temp : Option (List Char)) (s : Files) (h : Steps (start temp) s) :
    (s.renamed = none ∧ load s.live = .noSnapshot) ∨
      ∃ call, s.renamed = some call ∧
        load s.live = .restored (loadJobs (some (call.entries.map Prod.snd))) ∧
          (call.jobs.Keyed → load s.live = .restored call.jobs) := by
  have hinv := inv_of_steps h
  cases hrenamed : s.renamed with
  | none =>
    refine .inl ⟨rfl, ?_⟩
    rw [hinv.live, hrenamed]
    rfl
  | some call =>
    have hload : load s.live = .restored (loadJobs (some (call.entries.map Prod.snd))) := by
      rw [hinv.live, hrenamed]
      exact load_text call
    refine .inr ⟨call, rfl, hload, fun hkeyed => ?_⟩
    rw [hload, (hinv.visits call hrenamed).loadJobs_eq hkeyed]

section Example

open Sample

/-- A save that breaks off after `n` characters. -/
def torn (call : Save) (n : Nat) : List Label := [.save call, .create, .write n]

/-- A save that goes through. -/
def whole (call : Save) : List Label :=
  [.save call, .create, .write call.text.length, .rename]

theorem run_torn (hup : s.up = true) (hsaving : s.saving = none) (call : Save) (n : Nat) :
    Transition.run step (torn call n) s =
      some { s with
        temp := some (call.text.take n)
        saving := some (call, .writing (call.text.drop n)) } := by
  simp [torn, Transition.run, step, hup, hsaving]

theorem run_whole (hup : s.up = true) (hsaving : s.saving = none) (call : Save) :
    Transition.run step (whole call) s =
      some { s with live := some call.text, temp := none, renamed := some call } := by
  simp [whole, Transition.run, step, hup, hsaving]

theorem iterates_torn {call : Save} (h : call.jobs.Visits call.entries) (n : Nat) :
    ∀ l ∈ torn call n, ∀ u, Iterates u l := by
  intro l hl u
  simp only [torn, List.mem_cons, List.not_mem_nil, or_false] at hl
  rcases hl with rfl | rfl | rfl
  · exact h
  · trivial
  · trivial

theorem iterates_whole {call : Save} (h : call.jobs.Visits call.entries) :
    ∀ l ∈ whole call, ∀ u, Iterates u l := by
  intro l hl u
  simp only [whole, List.mem_cons, List.not_mem_nil, or_false] at hl
  rcases hl with rfl | rfl | rfl | rfl
  · exact h
  · trivial
  · trivial
  · trivial

def pendingSave : Save := ⟨Finmap.singleton job.id job, [(job.id, job)]⟩

def claimedSave : Save :=
  ⟨Finmap.singleton Host.claimed.id Host.claimed, [(Host.claimed.id, Host.claimed)]⟩

/-- An earlier coordinator has left the start of a temporary file. A job is saved; it is claimed,
and the coordinator crashes ten characters into the next save. It starts again with the job as it
was. -/
theorem load_live_torn :
    ∃ s, Steps (start (some ['['])) s ∧ s.temp = some (claimedSave.text.take 10) ∧
      load s.live = .restored (Finmap.singleton job.id job) := by
  have hrun : Transition.run step
      ([.restart] ++ (whole pendingSave ++ (torn claimedSave 10 ++ [.crash, .restart])))
      (start (some ['['])) =
        some ⟨some pendingSave.text, some (claimedSave.text.take 10), true, none,
          some pendingSave⟩ := by
    have hrestart : Transition.run step [.restart] (start (some ['['])) =
        some ⟨none, some ['['], true, none, none⟩ := rfl
    simp only [Transition.run_append, hrestart, Option.bind_some, run_whole, run_torn]
    rfl
  have hok : ∀ l ∈ [Label.restart] ++ (whole pendingSave ++ (torn claimedSave 10 ++
      [.crash, .restart])), ∀ u, Iterates u l := by
    have hpending : ∀ l ∈ whole pendingSave, ∀ u, Iterates u l :=
      iterates_whole (JobMap.visits_singleton job.id job)
    have hclaimed : ∀ l ∈ torn claimedSave 10, ∀ u, Iterates u l :=
      iterates_torn (JobMap.visits_singleton Host.claimed.id Host.claimed) 10
    simp only [List.forall_mem_append]
    exact ⟨by simp [Iterates], hpending, hclaimed, by simp [Iterates]⟩
  have hsteps := Transition.steps_of_run hok hrun
  obtain ⟨hnone, -⟩ | ⟨call, hcall, -, hload⟩ := load_live (some ['[']) _ hsteps
  · cases hnone
  · cases hcall
    exact ⟨_, hsteps, rfl, hload (JobMap.keyed_singleton job)⟩

/-- A job under another id than its own. -/
def misfiledSave : Save := ⟨Finmap.singleton ⟨.fill 32 1⟩ job, [(⟨.fill 32 1⟩, job)]⟩

/-- Such a map is not restored. -/
theorem load_live_misfiled :
    ∃ s, Steps (start none) s ∧ s.renamed = some misfiledSave ∧
      load s.live ≠ .restored misfiledSave.jobs := by
  have hrun : Transition.run step ([.restart] ++ whole misfiledSave) (start none) =
      some ⟨some misfiledSave.text, none, true, none, some misfiledSave⟩ := by
    have hrestart : Transition.run step [.restart] (start none) =
        some ⟨none, none, true, none, none⟩ := rfl
    simp only [Transition.run_append, hrestart, Option.bind_some, run_whole]
  have hok : ∀ l ∈ [Label.restart] ++ whole misfiledSave, ∀ u, Iterates u l := by
    have hwhole : ∀ l ∈ whole misfiledSave, ∀ u, Iterates u l :=
      iterates_whole (JobMap.visits_singleton ⟨.fill 32 1⟩ job)
    simp only [List.forall_mem_append]
    exact ⟨by simp [Iterates], hwhole⟩
  refine ⟨_, Transition.steps_of_run hok hrun, rfl, fun hload => ?_⟩
  rw [load_text, Loaded.restored.injEq] at hload
  have hlook := congrArg (fun m : JobMap => m.lookup ⟨.fill 32 1⟩) hload
  have hid : (⟨.fill 32 1⟩ : JobId) ≠ job.id := by decide
  simp [misfiledSave, loadJobs, hid] at hlook

end Example

end Files

end Disk

end ProofMarket
