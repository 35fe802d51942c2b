import Nzbd.Lib.Outbox
import Nzbd.Lib.Run
import Nzbd.Torrent.Steps

/-!
# One queue of commands

The owner and its channel are an `Outbox`: `outbox` reads off the log what the
channel has taken, and `enqueueBackendCommand` and `flushBackendCommands` are its
`offer` and its `flush`.  So the engine receives the accepted commands one after
the other, in the order in which they were accepted.

`InOrder` is what holds between two messages, and `Keeps` says that an operation
keeps it: what goes through the outbox does, and so does what touches neither
the commands nor their part of the log.

`durable_fifo` is the result.  A request of the operator or of the seed policy
that is refused leaves no trace, and one that is accepted by an owner that
persists has been saved before its command is handed on.  An owner that does not
persist accepts without a save; it is made one by a save that finds it fenced,
and `accepted_unsaved` is such a run.
-/

namespace Nzbd.Torrent

open List Owner

open Runs (Run)

variable {w : World} {o o' : Owner} {c : BackendCommand} {received : List BackendCommand}

/-! ### Commands in the log -/

def sentOf (log : List Event) : List BackendCommand :=
  log.filterMap fun
    | .sent c => some c
    | _ => none

def acceptedOf (log : List Event) : List BackendCommand :=
  log.filterMap fun
    | .accepted c => some c
    | _ => none

@[simp] theorem sentOf_append (l m : List Event) : sentOf (l ++ m) = sentOf l ++ sentOf m :=
  filterMap_append

@[simp] theorem acceptedOf_append (l m : List Event) :
    acceptedOf (l ++ m) = acceptedOf l ++ acceptedOf m :=
  filterMap_append

def Event.isCommand : Event → Bool
  | .sent _ => true
  | .accepted _ => true
  | _ => false

theorem sentOf_singleton {e : Event} (h : e.isCommand = false) : sentOf [e] = [] := by
  cases e <;> first | rfl | cases h

theorem acceptedOf_singleton {e : Event} (h : e.isCommand = false) : acceptedOf [e] = [] := by
  cases e <;> first | rfl | cases h

/-- What the channel has taken, and what is kept. -/
def Owner.outbox (o : Owner) : Outbox BackendCommand :=
  ⟨sentOf o.log, o.pendingBackendCommands⟩

/-! ### What leaves the commands alone -/

/-- No command has been kept, handed on or accepted. -/
structure Quiet (o o' : Owner) : Prop where
  pending : o'.pendingBackendCommands = o.pendingBackendCommands
  commands : o'.commands = o.commands
  log : o.log <+: o'.log
  sent : sentOf o'.log = sentOf o.log
  accepted : acceptedOf o'.log = acceptedOf o.log

namespace Quiet

theorem still (hp : o'.pendingBackendCommands = o.pendingBackendCommands)
    (hc : o'.commands = o.commands) (hl : o'.log = o.log) : Quiet o o' :=
  ⟨hp, hc, ⟨[], by simp [hl]⟩, by rw [hl], by rw [hl]⟩

theorem refl (o : Owner) : Quiet o o := still rfl rfl rfl

theorem trans {o'' : Owner} (h : Quiet o o') (h' : Quiet o' o'') : Quiet o o'' :=
  ⟨h'.pending.trans h.pending, h'.commands.trans h.commands, h.log.trans h'.log,
    h'.sent.trans h.sent, h'.accepted.trans h.accepted⟩

theorem note {e : Event} (h : Quiet o o') (he : e.isCommand = false) : Quiet o (o'.note e) :=
  h.trans ⟨rfl, rfl, ⟨[e], rfl⟩, by simp [Owner.note, sentOf_singleton he],
    by simp [Owner.note, acceptedOf_singleton he]⟩

end Quiet

theorem quiet_saveSnapshot (w : World) (o : Owner) : Quiet o (o.saveSnapshot w).2 := by
  simp only [saveSnapshot]
  split
  · split
    · exact Quiet.note (.still rfl rfl rfl) rfl
    · exact Quiet.note (.still rfl rfl rfl) rfl
    · exact Quiet.note (.still rfl rfl rfl) rfl
  · exact Quiet.refl o

theorem quiet_persistIfOwner (w : World) (o : Owner) : Quiet o (o.persistIfOwner w).2 := by
  simp only [persistIfOwner]
  split
  · exact quiet_saveSnapshot w o
  · exact Quiet.refl o

theorem jobs_saveSnapshot (w : World) (o : Owner) : (o.saveSnapshot w).2.jobs = o.jobs := by
  simp only [saveSnapshot]
  split
  · split <;> rfl
  · rfl

theorem jobs_persistIfOwner (w : World) (o : Owner) : (o.persistIfOwner w).2.jobs = o.jobs := by
  simp only [persistIfOwner]
  split
  · exact jobs_saveSnapshot w o
  · rfl

theorem quiet_record (w : World) (o : Owner) (id : JobId) (completedAtUnix : Int) :
    Quiet o (o.record w id completedAtUnix).2 := by
  simp only [record]
  split <;> exact Quiet.note (.still rfl rfl rfl) rfl

theorem Beside.quiet (h : Beside o o') : Quiet o o' := by
  obtain ⟨_, _, _, _, _, rfl⟩ := h
  exact .still rfl rfl rfl

/-! ### What the commands leave alone -/

def OnlyCommands (o o' : Owner) : Prop :=
  ∃ pending commands log, o' =
    { o with pendingBackendCommands := pending, commands := commands, log := log }

theorem onlyCommands_tryCommand (w : World) (o : Owner) (c : BackendCommand) :
    OnlyCommands o (o.tryCommand w c).2 := by
  simp only [tryCommand]
  split <;> exact ⟨_, _, _, rfl⟩

theorem OnlyCommands.trans {o'' : Owner} (h : OnlyCommands o o') (h' : OnlyCommands o' o'') :
    OnlyCommands o o'' := by
  obtain ⟨_, _, _, rfl⟩ := h
  obtain ⟨_, _, _, rfl⟩ := h'
  exact ⟨_, _, _, rfl⟩

theorem onlyCommands_enqueueBackendCommand (w : World) (o : Owner) (c : BackendCommand) :
    OnlyCommands o (o.enqueueBackendCommand w c).2 := by
  have htry := onlyCommands_tryCommand w o c
  simp only [enqueueBackendCommand]
  split
  · split <;> exact ⟨_, _, _, rfl⟩
  · split
    · exact htry.trans ⟨_, _, _, rfl⟩
    · split
      · exact htry
      · exact htry.trans ⟨_, _, _, rfl⟩

theorem onlyCommands_flushFrom (w : World) (cs : List BackendCommand) (o : Owner) :
    OnlyCommands o (Owner.flushFrom w cs o) := by
  induction cs generalizing o with
  | nil => exact ⟨_, _, _, rfl⟩
  | cons c cs ih =>
    have htry := onlyCommands_tryCommand w o c
    rw [flushFrom]
    simp only []
    split
    · exact htry.trans (ih _)
    · exact htry.trans ⟨_, _, _, rfl⟩

theorem onlyCommands_persistThenCommand (w : World) (o : Owner) (c : BackendCommand) :
    OnlyCommands o (o.persistThenCommand w c).2 ∨
      OnlyCommands (o.persistIfOwner w).2 (o.persistThenCommand w c).2 := by
  simp only [persistThenCommand]
  split
  · split
    · exact .inl ⟨_, _, _, rfl⟩
    · split <;> exact .inr ⟨_, _, _, rfl⟩
  · split
    · exact .inr (onlyCommands_enqueueBackendCommand w _ c)
    · exact .inr ⟨_, _, _, rfl⟩

theorem jobs_persistThenCommand (w : World) (o : Owner) (c : BackendCommand) :
    (o.persistThenCommand w c).2.jobs = o.jobs := by
  rcases onlyCommands_persistThenCommand w o c with ⟨_, _, _, h⟩ | ⟨_, _, _, h⟩
  · rw [h]
  · rw [h]
    exact jobs_persistIfOwner w o

/-! ### The outbox -/

theorem tryCommand_takes (h : w.takes o.log.length = true) : o.tryCommand w c =
    (true, { o with commands := o.commands ++ [c] }.note (.sent c)) := if_pos h

theorem tryCommand_full (h : w.takes o.log.length = false) :
    o.tryCommand w c = (false, o.note (.full c)) := if_neg (by simp [h])

theorem outbox_flushFrom (w : World) (cs : List BackendCommand) (o : Owner) :
    (Owner.flushFrom w cs o).outbox = Outbox.flushFrom w.takes o.log.length (sentOf o.log) cs := by
  induction cs generalizing o with
  | nil => rfl
  | cons c cs ih =>
    rw [flushFrom, Outbox.flushFrom]
    cases htakes : w.takes o.log.length with
    | true =>
      simp only [tryCommand_takes htakes, if_true, ih]
      simp [note, sentOf]
    | false =>
      simp only [tryCommand_full htakes]
      simp [outbox, note, sentOf]

theorem outbox_flushBackendCommands (w : World) (o : Owner) :
    (o.flushBackendCommands w).outbox =
      o.outbox.flush fun n => w.takes (o.log.length + n) := by
  have hshift : ∀ (n m : Nat) (taken kept : List BackendCommand),
      Outbox.flushFrom w.takes (n + m) taken kept =
        Outbox.flushFrom (fun k => w.takes (n + k)) m taken kept := by
    intro n m taken kept
    induction kept generalizing m taken with
    | nil => rfl
    | cons c kept ih =>
      rw [Outbox.flushFrom, Outbox.flushFrom, Nat.add_assoc, ih]
  exact (outbox_flushFrom w _ o).trans (hshift o.log.length 0 _ _)

structure Accepts (o o' : Owner) (c : BackendCommand) : Prop where
  offer : ∃ takes, o.outbox.offer maxPendingBackendCommands takes c = some o'.outbox
  log : o.log <+: o'.log
  accepted : acceptedOf o'.log = acceptedOf o.log ++ [c]
  sent : ∃ l, o'.commands = o.commands ++ l ∧ sentOf o'.log = sentOf o.log ++ l

theorem Quiet.outbox (h : Quiet o o') : o'.outbox = o.outbox := by
  simp [Owner.outbox, h.sent, h.pending]

theorem Accepts.of_quiet {o'' : Owner} (h : Quiet o o') (ha : Accepts o' o'' c) :
    Accepts o o'' c := by
  obtain ⟨⟨takes, hoffer⟩, hlog, haccepted, l, hl, hsent⟩ := ha
  exact ⟨⟨takes, h.outbox ▸ hoffer⟩, h.log.trans hlog, h.accepted ▸ haccepted, l,
    h.commands ▸ hl, h.sent ▸ hsent⟩

theorem accepts_retain (hroom : o.pendingBackendCommands.length ≠ maxPendingBackendCommands) :
    Accepts o (o.retain c) c where
  offer := ⟨false, by simp [Outbox.offer, Owner.outbox, hroom, Owner.retain, Owner.note, sentOf,
    Outbox.push]⟩
  log := ⟨_, rfl⟩
  accepted := by simp [Owner.retain, Owner.note, acceptedOf]
  sent := ⟨[], by simp [retain, note], by simp [retain, note, sentOf]⟩

theorem accepts_sent (htakes : w.takes o.log.length = true) (hnil : o.pendingBackendCommands = []) :
    Accepts o ((o.tryCommand w c).2.note (.accepted c)) c := by
  rw [tryCommand_takes htakes]
  exact {
    offer := ⟨true, by simp [Outbox.offer, outbox, hnil, note, sentOf]⟩
    log := ⟨[.sent c, .accepted c], by simp [note]⟩
    accepted := by simp [note, acceptedOf]
    sent := ⟨[c], by simp [note], by simp [note, sentOf]⟩ }

/-- **One queue**: a command is refused without a trace or goes to the end. -/
theorem enqueueBackendCommand_spec (w : World) (o : Owner) (c : BackendCommand) :
    ((o.enqueueBackendCommand w c).1 = false ∧ Quiet o (o.enqueueBackendCommand w c).2) ∨
      ((o.enqueueBackendCommand w c).1 = true ∧ Accepts o (o.enqueueBackendCommand w c).2 c) := by
  simp only [enqueueBackendCommand]
  split
  · split
    · exact .inl ⟨rfl, Quiet.refl o⟩
    · next hroom => exact .inr ⟨rfl, accepts_retain hroom⟩
  · next hnil =>
    rw [ne_eq, not_not] at hnil
    cases htakes : w.takes o.log.length with
    | true =>
      rw [if_pos (by rw [tryCommand_takes htakes])]
      exact .inr ⟨rfl, accepts_sent htakes hnil⟩
    | false =>
      have hfull : Quiet o (o.note (.full c)) := (Quiet.refl o).note rfl
      rw [tryCommand_full htakes]
      simp only [Bool.false_eq_true, if_false]
      split
      · exact .inl ⟨rfl, hfull⟩
      · next hroom => exact .inr ⟨rfl, .of_quiet hfull (accepts_retain hroom)⟩

theorem persistThenCommand_spec (w : World) (o : Owner) (c : BackendCommand) :
    ((o.persistThenCommand w c).1 = false ∧ Quiet o (o.persistThenCommand w c).2) ∨
      ((o.persistThenCommand w c).1 = true ∧ (o.persistIfOwner w).1 = true ∧
        Accepts (o.persistIfOwner w).2 (o.persistThenCommand w c).2 c) := by
  have hquiet := quiet_persistIfOwner w o
  simp only [persistThenCommand]
  split
  · split
    · exact .inl ⟨rfl, Quiet.refl o⟩
    · next hroom =>
      split
      · next hsaved =>
        exact .inr ⟨rfl, hsaved, accepts_retain (by rwa [hquiet.pending])⟩
      · exact .inl ⟨rfl, hquiet⟩
  · split
    · next hsaved =>
      rcases enqueueBackendCommand_spec w (o.persistIfOwner w).2 c with ⟨h, hq⟩ | ⟨h, ha⟩
      · exact .inl ⟨h, hquiet.trans hq⟩
      · exact .inr ⟨h, hsaved, ha⟩
    · exact .inl ⟨rfl, hquiet⟩

/-! ### Requests -/

/-- A request whose command is saved before it is handed on. -/
inductive Request
  | pause (job : JobId)
  | setPriority (job : JobId) (priority : Int)
  | delete (job : JobId) (deleteFiles : Bool)
  | seedPolicy (job : JobId) (reason : TorrentStopReason)

namespace Request

def job : Request → JobId
  | .pause job => job
  | .setPriority job _ => job
  | .delete job _ => job
  | .seedPolicy job _ => job

def answer (w : World) (o : Owner) : Request → Bool × Owner
  | .pause job => o.pause w job
  | .setPriority job priority => o.setPriority w job priority
  | .delete job deleteFiles => o.delete w job deleteFiles
  | .seedPolicy job reason => o.pauseForSeedPolicy w job reason

/-- The command of the request; a priority the torrent has already needs none. -/
def command (o : Owner) : Request → Option BackendCommand
  | .pause job => some (.pause job)
  | .setPriority job priority =>
    if (o.job job).any (·.priority = priority) then none else some (.setPriority job priority)
  | .delete job deleteFiles => ((o.job job).bind (·.torrent)).map fun t =>
    .remove job deleteFiles t.contentPath t.files o.torrentPayloadRoots
  | .seedPolicy job _ => some (.pauseForSeedPolicy job)

end Request

def Owner.isTorrent (o : Owner) (id : JobId) : Prop :=
  ∃ j, o.job id = some j ∧ j.kind = .torrent ∧ j.torrent.isSome

/-- A request that was refused: the jobs are what they were, and nothing has
happened to a command. -/
structure Refused (o o' : Owner) : Prop extends Quiet o o' where
  jobs : o'.jobs = o.jobs

/-- A request that was accepted with its command.  The log goes on with the save,
if the owner persists, and only then with the command. -/
structure Granted (o o' : Owner) (c : BackendCommand) : Prop extends Accepts o o' c where
  saved : o.persist = true → ∃ l, o'.log = o.log ++ .saved o'.jobs :: l

theorem log_persistIfOwner (h : (o.persistIfOwner w).1 = true) (hpersist : o.persist = true) :
    (o.persistIfOwner w).2.log = o.log ++ [.saved o.jobs] := by
  simp only [persistIfOwner, saveSnapshot, hpersist, if_true] at h ⊢
  split at h
  · rfl
  · cases h
  · cases h

theorem persistThenCommand_granted (h : (o.persistThenCommand w c).1 = true) :
    Granted o (o.persistThenCommand w c).2 c := by
  rcases persistThenCommand_spec w o c with ⟨hf, -⟩ | ⟨-, hsaved, ha⟩
  · simp [h] at hf
  · refine ⟨.of_quiet (quiet_persistIfOwner w o) ha, fun hpersist => ?_⟩
    obtain ⟨l, hl⟩ := ha.log
    refine ⟨l, ?_⟩
    rw [← hl, log_persistIfOwner hsaved hpersist, jobs_persistThenCommand, append_assoc,
      singleton_append]

theorem modifyFirst_restore {id : JobId} {f : Job → Job} {jobs : List Job} {before : Job}
    (hf : ∀ j, (f j).id = j.id) (h : jobs.find? (·.id = id) = some before) :
    (jobs.modifyFirst (·.id = id) f).modifyFirst (·.id = id) (fun _ => before) = jobs := by
  induction jobs with
  | nil => rfl
  | cons j jobs ih =>
    by_cases hj : j.id = id
    · rw [find?_cons_of_pos (by simpa using hj), Option.some.injEq] at h
      rw [modifyFirst_cons_pos (by simpa using hj),
        modifyFirst_cons_pos (by simpa [hf] using hj), h]
    · rw [find?_cons_of_neg (by simpa using hj)] at h
      rw [modifyFirst_cons_neg (by simpa using hj),
        modifyFirst_cons_neg (by simpa using hj), ih h]

theorem requestChange_spec {id : JobId} {f : Job → Job} (hf : ∀ j, (f j).id = j.id) {j : Job}
    (hj : o.job id = some j) (w : World) (c : BackendCommand) :
    ((o.requestChange w id f c).1 = false ∧ Refused o (o.requestChange w id f c).2) ∨
      ((o.requestChange w id f c).1 = true ∧ Granted o (o.requestChange w id f c).2 c) := by
  have hupdate : Quiet o (o.updateJob id f) := .still rfl rfl rfl
  have hjobs := jobs_persistThenCommand w (o.updateJob id f) c
  simp only [requestChange]
  split
  · next hgranted =>
    have hg := persistThenCommand_granted hgranted
    exact .inr ⟨hgranted, .of_quiet hupdate hg.toAccepts, hg.saved⟩
  · next hrefused =>
    rw [hj]
    refine .inl ⟨rfl, ?_, ?_⟩
    · rcases persistThenCommand_spec w (o.updateJob id f) c with ⟨-, hq⟩ | ⟨h, -⟩
      · exact (hupdate.trans hq).trans (.still rfl rfl rfl)
      · exact absurd h hrefused
    · simp only [updateJob] at hjobs ⊢
      rw [hjobs]
      exact modifyFirst_restore hf hj

theorem modifyFirst_same {id : JobId} {f : Job → Job} {jobs : List Job} {j : Job}
    (h : jobs.find? (·.id = id) = some j) (hf : f j = j) :
    jobs.modifyFirst (·.id = id) f = jobs := by
  obtain ⟨s, t, hjobs, hmodify, -, -⟩ := modifyFirst_split (f := f) h
  rw [hmodify, hf, hjobs]

theorem setPriority_same {id : JobId} {priority : Int} {j : Job} (hj : o.job id = some j)
    (hp : j.priority = priority) :
    o.setPriority w id priority =
      (true, o.updateJob id fun j => { j with priority := priority }) := by
  simp [setPriority, hj, hp]

/-- **A request is refused without a trace, or granted.** -/
theorem request_spec (w : World) (o : Owner) (r : Request) (ht : o.isTorrent r.job) :
    ((r.answer w o).1 = false → Refused o (r.answer w o).2) ∧
      ((r.answer w o).1 = true → (r.command o = none ∧ Refused o (r.answer w o).2) ∨
        ∃ c, r.command o = some c ∧ Granted o (r.answer w o).2 c) := by
  obtain ⟨j, hj, hkind, htorrent⟩ := ht
  -- every request with a command is one `requestChange`
  have hchange : ∀ (f : Job → Job) (c : BackendCommand), (∀ j, (f j).id = j.id) →
      r.answer w o = o.requestChange w r.job f c → r.command o = some c →
      ((r.answer w o).1 = false → Refused o (r.answer w o).2) ∧
        ((r.answer w o).1 = true → (r.command o = none ∧ Refused o (r.answer w o).2) ∨
          ∃ c, r.command o = some c ∧ Granted o (r.answer w o).2 c) := by
    intro f c hf hanswer hcommand
    rw [hanswer]
    rcases requestChange_spec hf hj w c with ⟨h, hr⟩ | ⟨h, hg⟩
    · exact ⟨fun _ => hr, fun h' => by simp [h] at h'⟩
    · exact ⟨fun h' => by simp [h] at h', fun _ => .inr ⟨c, hcommand, hg⟩⟩
  cases r with
  | pause id =>
    cases hactive : isActive j.status with
    | true =>
      refine hchange pausedJob (.pause id) (fun _ => rfl) ?_ rfl
      simp only [Request.job] at hj
      simp [Request.answer, Request.job, pause, hj, hactive, hkind, htorrent]
    | false =>
      have hanswer : (Request.pause id).answer w o = (false, o) := by
        simp only [Request.job] at hj
        simp [Request.answer, pause, hj, hactive]
      rw [hanswer]
      exact ⟨fun _ => ⟨Quiet.refl o, rfl⟩, fun h => by cases h⟩
  | setPriority id priority =>
    simp only [Request.job] at hj
    by_cases hp : j.priority = priority
    · have hanswer : (Request.setPriority id priority).answer w o =
          (true, o.updateJob id fun j => { j with priority := priority }) := setPriority_same hj hp
      rw [hanswer]
      refine ⟨fun h => (by cases h), fun _ => .inl ⟨by simp [Request.command, hj, hp], ?_⟩⟩
      exact ⟨.still rfl rfl rfl, modifyFirst_same hj (by rw [← hp])⟩
    · refine hchange (fun j => { j with priority := priority }) (.setPriority id priority)
        (fun _ => rfl) ?_ (by simp [Request.command, hj, hp])
      simp [Request.answer, Request.job, setPriority, hj, hkind, hp]
  | delete id deleteFiles =>
    simp only [Request.job] at hj
    obtain ⟨t, ht⟩ := Option.isSome_iff_exists.mp htorrent
    refine hchange
      (fun j => { j with torrent := j.torrent.map fun t =>
        { t with removalIntent := some deleteFiles } })
      (.remove id deleteFiles t.contentPath t.files o.torrentPayloadRoots) (fun _ => rfl) ?_
      (by simp [Request.command, hj, ht])
    simp [Request.answer, Request.job, delete, hj, ht]
  | seedPolicy id reason =>
    simp only [Request.job] at hj
    refine hchange (seedPolicyPaused reason) _ (fun _ => rfl) ?_ rfl
    simp [Request.answer, Request.job, pauseForSeedPolicy, hj]

/-! ### Runs -/

/-- What holds of the commands after an operation holds if it held before. -/
structure Keeps (o o' : Owner) : Prop where
  accepted : ∃ l, acceptedOf o'.log = acceptedOf o.log ++ l ∧ o'.outbox.items = o.outbox.items ++ l
  bounded : o.pendingBackendCommands.length ≤ maxPendingBackendCommands →
    o'.pendingBackendCommands.length ≤ maxPendingBackendCommands
  sent : ∃ l, o'.commands = o.commands ++ l ∧ sentOf o'.log = sentOf o.log ++ l

namespace Keeps

theorem refl (o : Owner) : Keeps o o := ⟨⟨[], by simp⟩, id, [], by simp⟩

theorem trans {o'' : Owner} (h : Keeps o o') (h' : Keeps o' o'') : Keeps o o'' := by
  obtain ⟨⟨l, ha, hi⟩, hb, m, hc, hs⟩ := h
  obtain ⟨⟨l', ha', hi'⟩, hb', m', hc', hs'⟩ := h'
  exact ⟨⟨l ++ l', by rw [ha', ha, append_assoc], by rw [hi', hi, append_assoc]⟩,
    hb' ∘ hb, m ++ m', by rw [hc', hc, append_assoc], by rw [hs', hs, append_assoc]⟩

theorem of_quiet (h : Quiet o o') : Keeps o o' :=
  ⟨⟨[], by simp [h.accepted], by simp [h.outbox]⟩, by rw [h.pending]; exact id, [],
    by simp [h.commands], by simp [h.sent]⟩

theorem of_accepts (h : Accepts o o' c) : Keeps o o' := by
  obtain ⟨takes, hoffer⟩ := h.offer
  exact ⟨⟨[c], h.accepted, Outbox.items_offer hoffer⟩,
    fun hb => Outbox.length_kept_offer (b := o.outbox) hb hoffer, h.sent⟩

end Keeps

theorem keeps_enqueueBackendCommand (w : World) (o : Owner) (c : BackendCommand) :
    Keeps o (o.enqueueBackendCommand w c).2 := by
  rcases enqueueBackendCommand_spec w o c with ⟨-, hq⟩ | ⟨-, ha⟩
  · exact .of_quiet hq
  · exact .of_accepts ha

theorem keeps_persistThenCommand (w : World) (o : Owner) (c : BackendCommand) :
    Keeps o (o.persistThenCommand w c).2 := by
  rcases persistThenCommand_spec w o c with ⟨-, hq⟩ | ⟨-, -, ha⟩
  · exact .of_quiet hq
  · exact .of_accepts (.of_quiet (quiet_persistIfOwner w o) ha)

theorem flushFrom_spec (w : World) (cs : List BackendCommand) (o : Owner) : ∃ l,
    (Owner.flushFrom w cs o).commands = o.commands ++ l ∧
      sentOf (Owner.flushFrom w cs o).log = sentOf o.log ++ l ∧
      acceptedOf (Owner.flushFrom w cs o).log = acceptedOf o.log := by
  induction cs generalizing o with
  | nil => exact ⟨[], by simp [flushFrom]⟩
  | cons c cs ih =>
    rw [flushFrom]
    cases htakes : w.takes o.log.length with
    | true =>
      obtain ⟨l, hc, hs, ha⟩ := ih (o.tryCommand w c).2
      rw [tryCommand_takes htakes] at hc hs ha ⊢
      refine ⟨c :: l, ?_, ?_, ?_⟩
      · simpa [note] using hc
      · simpa [note, sentOf] using hs
      · simpa [note, acceptedOf] using ha
    | false =>
      rw [tryCommand_full htakes]
      exact ⟨[], by simp [note], by simp [note, sentOf],
        by simp [note, acceptedOf]⟩

theorem keeps_flushBackendCommands (w : World) (o : Owner) :
    Keeps o (o.flushBackendCommands w) := by
  obtain ⟨l, hc, hs, ha⟩ := flushFrom_spec w o.pendingBackendCommands o
  have houtbox := outbox_flushBackendCommands w o
  refine ⟨⟨[], ha.trans (append_nil _).symm, ?_⟩, fun hb => ?_, l, hc, hs⟩
  · rw [houtbox, Outbox.items_flush, append_nil]
  · have := Outbox.length_kept_flush (b := o.outbox) (fun n => w.takes (o.log.length + n)) hb
    rwa [← houtbox] at this

theorem respects_keeps (w : World) : Respects w (fun _ _ => True) (fun _ => True) Keeps where
  same _ := trivial
  refl := .refl
  trans := .trans
  beside h _ := .of_quiet h.quiet
  putBack h _ := h.trans (.of_quiet (.still rfl rfl rfl))
  enqueue o _ _ := keeps_enqueueBackendCommand w o _
  persistThen o _ _ := keeps_persistThenCommand w o _
  flush o := keeps_flushBackendCommands w o
  save o := .of_quiet (quiet_saveSnapshot w o)
  record o id at' := .of_quiet (quiet_record w o id at')

/-- **Every message and every part of a tick keeps the order.** -/
theorem keeps_step (w : World) (o : Owner) (i : Input) : Keeps o (o.step w i) := by
  have hlimit : ∀ (o : Owner) l, Keeps o { o with appliedTorrentLimit := l } :=
    fun _ _ => .of_quiet (.still rfl rfl rfl)
  have hclock : ∀ (o : Owner) jobs clock, Keeps o { o with jobs := jobs, seedClockUnix := clock } :=
    fun _ _ _ => .of_quiet (.still rfl rfl rfl)
  refine (respects_keeps w).step o ?_
  cases i with
  | setSpeedLimit => exact ⟨trivial, hlimit⟩
  | rebalance => exact ⟨trivial, hlimit⟩
  | updateSeedPolicies =>
    exact ⟨fun _ => trivial, fun _ _ => trivial, fun _ _ => trivial, fun o jobs clock _ => hclock o jobs clock⟩
  | _ => simp [Allows]

structure Link where
  owner : Owner
  received : List BackendCommand

inductive LinkInput
  | owner (w : World) (i : Input)
  /-- Whatever else happens to the jobs, and to the right to persist them. -/
  | elsewhere (jobs : List Job) (persist : Bool)
  | report (fact : BackendFact)
  /-- The engine takes the next command. -/
  | receive

namespace Link

def step (l : Link) : LinkInput → Link
  | .owner w i => { l with owner := l.owner.step w i }
  | .elsewhere jobs persist => { l with owner := { l.owner with jobs := jobs, persist := persist } }
  | .report fact => { l with owner := { l.owner with facts := l.owner.facts ++ [fact] } }
  | .receive =>
    match l.owner.commands with
    | [] => l
    | c :: cs => ⟨{ l.owner with commands := cs }, l.received ++ [c]⟩

def Next (l : Link) (i : LinkInput) (l' : Link) : Prop := l' = l.step i

/-- Nothing has been said yet. -/
structure Start (l : Link) : Prop where
  pending : l.owner.pendingBackendCommands = []
  commands : l.owner.commands = []
  log : l.owner.log = []
  received : l.received = []

/-- The accepted commands are those received, those in the channel and those
kept, in this order. -/
structure InOrder (l : Link) : Prop where
  accepted : acceptedOf l.owner.log = l.owner.outbox.items
  bounded : l.owner.pendingBackendCommands.length ≤ maxPendingBackendCommands
  sent : sentOf l.owner.log = l.received ++ l.owner.commands

theorem InOrder.keeps {l l' : Link} (h : l.InOrder) (hk : Keeps l.owner l'.owner)
    (hr : l'.received = l.received) : l'.InOrder := by
  obtain ⟨⟨m, ha, hi⟩, hb, n, hc, hs⟩ := hk
  exact ⟨by rw [ha, hi, h.accepted], hb h.bounded,
    by rw [hs, hc, hr, h.sent, append_assoc]⟩

theorem inOrder_start {l : Link} (h : l.Start) : l.InOrder := by
  refine ⟨?_, ?_, ?_⟩
  · simp [outbox, Outbox.items, h.log, h.pending, acceptedOf, sentOf]
  · simp [h.pending]
  · simp [h.log, h.commands, h.received, sentOf]

theorem InOrder.step {l : Link} (h : l.InOrder) (i : LinkInput) : (l.step i).InOrder := by
  cases i with
  | owner w i => exact h.keeps (keeps_step w l.owner i) rfl
  | elsewhere jobs persist => exact h.keeps (.of_quiet (.still rfl rfl rfl)) rfl
  | report fact => exact h.keeps (.of_quiet (.still rfl rfl rfl)) rfl
  | receive =>
    simp only [Link.step]
    split
    · exact h
    · next c cs hc => exact ⟨h.accepted, h.bounded, by simpa [hc] using h.sent⟩

end Link

/-- Every state some run reaches, whatever the channel and the disk answer. -/
abbrev LinkRun : Link → Prop := Run Link.Start Link.Next fun _ _ => True

theorem inOrder_of_run {l : Link} (h : LinkRun l) : l.InOrder :=
  h.invariant (fun _ => Link.inOrder_start) fun _ i _ hi _ hn => hn ▸ hi.step i

/-- **Saved before it is handed on, and received in the order of acceptance.** -/
theorem durable_fifo :
    (∀ (w : World) (o : Owner) (r : Request), o.isTorrent r.job →
      ((r.answer w o).1 = false → Refused o (r.answer w o).2) ∧
      ((r.answer w o).1 = true → (r.command o = none ∧ Refused o (r.answer w o).2) ∨
        ∃ c, r.command o = some c ∧ Granted o (r.answer w o).2 c)) ∧
    ∀ l : Link, LinkRun l →
      acceptedOf l.owner.log =
        l.received ++ l.owner.commands ++ l.owner.pendingBackendCommands ∧
      l.owner.pendingBackendCommands.length ≤ maxPendingBackendCommands := by
  refine ⟨request_spec, fun l hl => ?_⟩
  have h := inOrder_of_run hl
  refine ⟨?_, h.bounded⟩
  calc acceptedOf l.owner.log = l.owner.outbox.items := h.accepted
    _ = sentOf l.owner.log ++ l.owner.pendingBackendCommands := rfl
    _ = _ := by rw [h.sent]

/-! ### A fenced owner -/

theorem link_start (jobs : List Job) : LinkRun ⟨newOwner jobs, []⟩ := .start ⟨rfl, rfl, rfl, rfl⟩

theorem LinkRun.after {l : Link} (h : LinkRun l) (i : LinkInput) : LinkRun (l.step i) :=
  h.step trivial rfl

/-- The theorem on a pause of a torrent that downloads, handed on at once. -/
theorem durable_fifo_pause :
    Granted (newOwner [plainJob]) ((newOwner [plainJob]).pause (fairWorld 0) 1).2 (.pause 1) ∧
      acceptedOf ((newOwner [plainJob]).pause (fairWorld 0) 1).2.log = [.pause 1] := by
  have hanswer : ((newOwner [plainJob]).pause (fairWorld 0) 1).1 = true := by decide
  refine ⟨?_, ?_⟩
  · obtain ⟨-, hgranted⟩ := durable_fifo.1 (fairWorld 0) (newOwner [plainJob]) (.pause 1)
      ⟨plainJob, rfl, rfl, rfl⟩
    rcases hgranted hanswer with ⟨h, -⟩ | ⟨c, hc, h⟩
    · cases h
    · obtain rfl := Option.some.inj hc
      exact h
  · exact (durable_fifo.2 _ ((link_start [plainJob]).after
      (.owner (fairWorld 0) (.pause 1)))).1

/-- A pause whose save finds the owner fenced, and the same pause again: it is
handed on, and no snapshot has ever been written. -/
def fencedLink : Link :=
  (Link.mk (newOwner [plainJob]) []).step
    (.owner { fairWorld 0 with save := fun _ => .corrupt } (.pause 1))

/-- **Accepted without a save**, by an owner that had been told that it may not
save any more. -/
theorem accepted_unsaved :
    LinkRun fencedLink ∧ fencedLink.owner.isTorrent 1 ∧
      (fencedLink.owner.pause (fairWorld 0) 1).1 = true ∧
      (fencedLink.owner.pause (fairWorld 0) 1).2.log =
        [.saveFailed, .sent (.pause 1), .accepted (.pause 1)] :=
  ⟨(link_start [plainJob]).after _, ⟨plainJob, by decide, rfl, rfl⟩, by decide, by decide⟩

end Nzbd.Torrent
