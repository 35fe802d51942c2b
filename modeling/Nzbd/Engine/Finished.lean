import Nzbd.Engine.OpenFiles

/-!
# No finished file is forgotten

A start tells the writers of all open files in the jobs that download; it looks at no
other job.  So what is read from the disk must have no open file in a job that is paused
or beyond its download, `Resumable`.

`knowsFinished_of_run` is the result for a run: in a job that downloads here, a file with
all its segments decided and one of them on disk has been put in place, or its writer has
been told to, or will be at the next tick.
-/

namespace Nzbd.Engine

open List

open Nzbd.State (Codec JournalRecord)

namespace Owner

variable {w : World} {o : Owner}

/-! ### Start -/

/-- What is read from the disk has open files only in jobs that download, or whose payload
is about to go. -/
def Resumable (cfg : Config) (s : QueueState) : Prop :=
  ∀ j ∈ s.jobs, ∀ f ∈ j.files, isOpen f = true →
    isActive j.status = true ∨ (j.torrent = none ∧ cfg.retained j.id = true)

theorem Orderly.start (cfg : Config) (doc : QueueSnapshotDoc) (records : List JournalRecord)
    (hk : (recover w.nowUnix doc records).state.WellKeyed)
    (h : Resumable cfg (recover w.nowUnix doc records).state) :
    Orderly [] (start w cfg doc records) := by
  generalize hr : recover w.nowUnix doc records = r at hk h
  have hkeyed : (recovered w cfg r).state.WellKeyed := (recovered_by cfg r).wellKeyed hk
  let active := (recovered w cfg r).state.jobs.filter fun j => isActive j.status
  have hrecovered : Orderly (active.flatMap fun j => j.files.map fun f => (j.id, f.id))
      (recovered w cfg r) := by
    refine ⟨hkeyed, fun j' hj' f hf ho hE => ?_⟩
    obtain ⟨j, hj, heq⟩ := mem_map.mp hj'
    unfold holdRetained at heq
    split at heq
    next hret =>
      -- paused, and its writers are on their way out
      subst heq
      refine .inr (.inr ⟨?_, rfl⟩)
      refine mem_map.mpr ⟨j, mem_filter.mpr ⟨hj, ?_⟩, rfl⟩
      simpa using hret
    next hret =>
      subst heq
      rcases h j hj f hf ho with hactive | hout
      · refine absurd (mem_flatMap.mpr ⟨j, mem_filter.mpr ⟨hj', hactive⟩, ?_⟩) hE
        exact mem_map_of_mem hf
      · exact absurd hout hret
  rw [Owner.start, hr]
  refine hrecovered.saveSnapshot.startupPass fun j hj f hf _ hE => ?_
  rw [saveSnapshot_state] at hj
  obtain ⟨k, hkm, hmem⟩ := mem_flatMap.mp hE
  obtain ⟨hkm, hactive⟩ := mem_filter.mp hkm
  obtain ⟨g, -, hp⟩ := mem_map.mp hmem
  have hjob := hkeyed.job_of_mem hkm
  rw [(Prod.mk.inj hp).1, hkeyed.job_of_mem hj] at hjob
  obtain rfl := Option.some.inj hjob
  exact hactive

/-- **The finished files of the jobs that download here are known**: their writers have
been told, or will be at the next tick.  So a job with every segment decided is complete,
or there is a file left to complete it. -/
def KnowsFinished (o : Owner) : Prop :=
  ∀ j ∈ o.state.jobs, isActive j.status = true → j.id ∉ o.delegated →
    (∀ f ∈ j.files, isOpen f = true → f.id ∈ o.finalizeSent ∨ (j.id, f.id) ∈ o.pendingFinalize) ∧
    (j.files ≠ [] → (∀ f ∈ j.files, f.isTerminal = true) → jobComplete j = true ∨
      ∃ f ∈ j.files, isOpen f = true ∧ (f.id ∈ o.finalizeSent ∨ (j.id, f.id) ∈ o.pendingFinalize))

theorem Orderly.knowsFinished (h : Orderly [] o) : KnowsFinished o := by
  intro j hj hactive _
  have hbooks : ∀ f ∈ j.files, isOpen f = true →
      f.id ∈ o.finalizeSent ∨ (j.id, f.id) ∈ o.pendingFinalize := by
    intro f hf ho
    rcases h.tracked j hj f hf ho not_mem_nil with hsent | hpend | ⟨-, hs⟩
    · exact .inl hsent
    · exact .inr hpend
    · rw [hactive] at hs
      nomatch hs
  refine ⟨hbooks, fun hne hterm => ?_⟩
  cases hall : j.files.all fileSettled with
  | true => exact .inl (by simp [jobComplete, hne, hall])
  | false =>
    obtain ⟨f, hf, hunsettled⟩ := all_eq_false.mp hall
    have ho : isOpen f = true := by
      simp only [fileSettled, hterm f hf, Bool.true_and, Bool.or_eq_true, Bool.not_eq_true',
        not_or] at hunsettled
      simp [isOpen, hterm f hf, hunsettled.2.1, hunsettled.2.2]
    exact .inr ⟨f, hf, ho, hbooks f hf ho⟩

end Owner

/-! ### Runs -/

namespace Node

variable {c : Codec} {lower : Text → Text}

/-- At a start what is on disk can be resumed, and a message minds what it brings in. -/
def Minded (c : Codec) (n : Node) : Event → Prop
  | .run (.start w cfg) =>
    Owner.Resumable cfg (recover w.nowUnix n.disk.doc (n.disk.records c)).state
  | .run (.message w m) => ∀ o, n.owner = some o → m.Minded w o
  | _ => True

/-- **No finished file is forgotten** in a run that minds what it starts from and brings
in. -/
theorem knowsFinished_of_run {n : Node} {o : Owner}
    (h : Reached c lower (fun n e => Fresh lower n e ∧ Minded c n e) n) (ho : n.owner = some o) :
    o.KnowsFinished := by
  have hkeyed : ∀ m, Reached c lower (fun n e => Fresh lower n e ∧ Minded c n e) m → m.Keyed :=
    fun m hm => keyed_of_run (fun _ _ h => h.1) hm
  suffices horderly : ∀ o, n.owner = some o → o.Orderly [] from (horderly o ho).knowsFinished
  clear ho
  induction h with
  | start hinit =>
    intro o ho
    rw [hinit] at ho
    cases ho
  | @step n n' e hn hok hnext ih =>
    cases hnext with
    | crash _ _ => intro o ho; cases ho
    | @run t q hq =>
      intro o ho
      obtain rfl := Option.some.inj ho
      suffices hq : q.Orderly [] from hq.congr rfl ⟨rfl, rfl, rfl⟩
      cases t with
      | idle => exact ih q hq
      | start w cfg =>
        rw [Node.perform] at hq
        split at hq
        · obtain rfl := Option.some.inj hq
          obtain ⟨s, hs, hk⟩ := (hkeyed n hn).disk
          refine .start cfg _ _ ?_ hok.2
          rw [hs]
          exact Owner.recover_keyed hk w.nowUnix (n.disk.records c)
        · cases hq
      | message w m =>
        obtain ⟨p, hp, rfl⟩ := Option.map_eq_some_iff.mp hq
        exact (ih p hp).step (hok.1 w m p rfl hp) (hok.2 p hp)

/-- The daemon dies while it waits, and a journal keeps at most `k` bytes of its last
record. -/
def crashed (c : Codec) (k : Nat) (n : Node) : Node :=
  ⟨{ n.disk with journals := n.disk.journals.map fun f =>
      { f with pieces := f.pieces.apply c (.tear k) } }, none, n.written⟩

theorem Reached.crashed {ok : Node → Event → Prop} {n : Node} (h : Reached c lower ok n) (k : Nat)
    (hrun : n.owner.isSome = true) (hok : ok n (.crash .idle)) :
    Reached c lower ok (n.crashed c k) := by
  obtain ⟨o, ho⟩ := Option.isSome_iff_exists.mp hrun
  refine Runs.Run.step h hok (.crash (o := o) ho ⟨n.disk, .stop _ _, rfl, ?_⟩)
  show List.Forall₂ _ _ (n.disk.journals.map _)
  rw [forall₂_map_right_iff, forall₂_same]
  exact fun f _ => ⟨k, rfl⟩

def savingWorld : World := { calmWorld with saveDue := true }

/-- One file with one article. -/
def oneNzb : ParsedNzb where
  title := none
  category := none
  files := [⟨text "one.bin", none, none, [], [⟨text "a@b", 1, 100⟩], first_sorted⟩]

def told (n : Node) (m : Msg) : Node := n.after State.canonicalCodec id (.message savingWorld m)

def leasedNode : Node :=
  ((started calmWorld (dayConfig false)).told (.addParsed (text "one") oneNzb none 0 false [])).told
    (.workRequest 1 1)

/-- Paused and saved before the article is on disk; then the daemon dies, starts again and
resumes the job. -/
def resumedNode : Node :=
  (((((leasedNode.told (.pause 1)).told .tick).told (.segmentWritten ⟨1, 1, 1, 0, 90, 0, 90⟩)).crashed
    State.canonicalCodec 1000).after State.canonicalCodec id
      (.start calmWorld (dayConfig false))).told (.resume 1)

def openFiles (n : Node) : Option (List (JobId × JobStatus × List (FileId × Bool))) :=
  n.owner.map fun o => o.state.jobs.map fun j =>
    (j.id, j.status, j.files.map fun f => (f.id, isOpen f))

def books (n : Node) : Option (List FileId × List (JobId × FileId)) :=
  n.owner.map fun o => (o.finalizeSent, o.pendingFinalize)

theorem told_reached {ok : Node → Event → Prop} {n : Node}
    (h : Reached State.canonicalCodec id ok n) (hrun : n.owner.isSome = true) (m : Msg)
    (hok : ok n (.run (.message savingWorld m))) :
    Reached State.canonicalCodec id ok (n.told m) ∧ (n.told m).owner.isSome = true :=
  ⟨h.after _ (perform_message hrun ..) hok, after_running (perform_message hrun ..)⟩

theorem leasedNode_reached {ok : Node → Event → Prop}
    (hstart : ok ⟨⟨none, []⟩, none, []⟩ (.run (.start calmWorld (dayConfig false))))
    (hadd : ok (started calmWorld (dayConfig false))
      (.run (.message savingWorld (.addParsed (text "one") oneNzb none 0 false []))))
    (hwork : ∀ n, ok n (.run (.message savingWorld (.workRequest 1 1)))) :
    Reached State.canonicalCodec id ok leasedNode ∧ leasedNode.owner.isSome = true := by
  have hstarted := started_reached calmWorld (dayConfig false) hstart
  have hadded := told_reached hstarted (started_running ..) _ hadd
  exact told_reached hadded.1 hadded.2 _ (hwork _)

/-- Not paused in between, the writer is told. -/
theorem knowsFinished_written :
    (leasedNode.told (.segmentWritten ⟨1, 1, 1, 0, 90, 0, 90⟩)).openFiles =
        some [(1, .downloading, [(1, true)])] ∧
      (leasedNode.told (.segmentWritten ⟨1, 1, 1, 0, 90, 0, 90⟩)).books = some ([1], []) ∧
      ∀ o, (leasedNode.told (.segmentWritten ⟨1, 1, 1, 0, 90, 0, 90⟩)).owner = some o →
        o.KnowsFinished := by
  refine ⟨by decide +kernel, by decide +kernel, fun o ho => ?_⟩
  have hfresh : Fresh id (started calmWorld (dayConfig false))
      (.run (.message savingWorld (.addParsed (text "one") oneNzb none 0 false []))) := by
    intro w m o ht ho
    obtain ⟨rfl, rfl⟩ := Task.message.inj ht
    obtain rfl := Option.some.inj ho
    exact ⟨not_mem_nil, by decide +kernel, fun i _ => not_mem_nil⟩
  have hquiet : ∀ n m, (∀ o, Msg.Fresh id savingWorld o m) →
      Fresh id n (.run (.message savingWorld m)) := by
    intro n m hm w m' o ht _
    obtain ⟨rfl, rfl⟩ := Task.message.inj ht
    exact hm o
  obtain ⟨hleased, hrun⟩ : Reached State.canonicalCodec id
      (fun n e => Fresh id n e ∧ Minded State.canonicalCodec n e) leasedNode ∧ _ := leasedNode_reached
    ⟨fun _ _ _ ht => (nomatch ht), fun j hj => nomatch hj⟩ ⟨hfresh, fun _ _ => trivial⟩
    fun n => ⟨hquiet n _ fun _ => trivial, fun _ _ => trivial⟩
  have hwritten := told_reached hleased hrun (.segmentWritten ⟨1, 1, 1, 0, 90, 0, 90⟩)
    ⟨hquiet _ _ fun _ => trivial, fun _ _ => trivial⟩
  exact knowsFinished_of_run hwritten.1 ho

/-- The resumed job waits for its file, and nobody has been told. -/
theorem not_knowsFinished_resumed : ¬ ∀ (n : Node) (o : Owner),
    Reached State.canonicalCodec id (fun _ _ => True) n → n.owner = some o → o.KnowsFinished := by
  intro h
  have hopenFiles : resumedNode.openFiles = some [(1, .queued, [(1, true)])] := by decide +kernel
  have hbooks : resumedNode.books = some ([], []) := by decide +kernel
  have hdelegated : resumedNode.owner.map (·.delegated) = some [] := by decide +kernel
  obtain ⟨hleased, hrun⟩ : Reached State.canonicalCodec id (fun _ _ => True) leasedNode ∧ _ :=
    leasedNode_reached trivial trivial fun _ => trivial
  have hpaused := told_reached hleased hrun (.pause 1) trivial
  have hsaved := told_reached hpaused.1 hpaused.2 .tick trivial
  have hwritten := told_reached hsaved.1 hsaved.2 (.segmentWritten ⟨1, 1, 1, 0, 90, 0, 90⟩) trivial
  have hcrashed := hwritten.1.crashed 1000 hwritten.2 trivial
  have hstarted := hcrashed.after (.start calmWorld (dayConfig false)) rfl trivial
  have hresumed := told_reached hstarted (after_running rfl) (.resume 1) trivial
  obtain ⟨o, ho⟩ := Option.isSome_iff_exists.mp hresumed.2
  have hknows := h resumedNode o hresumed.1 ho
  have howner : resumedNode.owner = some o := ho
  rw [openFiles, howner, Option.map_some] at hopenFiles
  rw [books, howner, Option.map_some] at hbooks
  rw [howner, Option.map_some] at hdelegated
  have hjobs := Option.some.inj hopenFiles
  obtain ⟨hsent, hpend⟩ := Prod.mk.inj (Option.some.inj hbooks)
  obtain ⟨j, hj⟩ : ∃ j, o.state.jobs = [j] := length_eq_one_iff.mp (by
    simpa using congrArg List.length hjobs)
  rw [hj, map_singleton] at hjobs
  obtain ⟨hid, hstatus, hfiles⟩ : j.id = 1 ∧ j.status = .queued ∧
      (j.files.map fun f => (f.id, isOpen f)) = [(1, true)] := by
    simpa using hjobs
  obtain ⟨f, hf⟩ : ∃ f, j.files = [f] := length_eq_one_iff.mp (by
    simpa using congrArg List.length hfiles)
  rw [hf, map_singleton] at hfiles
  have hopen : isOpen f = true := by
    simpa using (Prod.mk.inj (singleton_inj.mp hfiles)).2
  have hactive : Owner.isActive j.status = true := by rw [hstatus]; rfl
  have hlocal : j.id ∉ o.delegated := by
    rw [Option.some.inj hdelegated]
    exact not_mem_nil
  rcases (hknows j (by simp [hj]) hactive hlocal).1 f (by simp [hf]) hopen with hmem | hmem
  · rw [hsent] at hmem
    nomatch hmem
  · rw [hpend] at hmem
    nomatch hmem

end Node

end Nzbd.Engine
