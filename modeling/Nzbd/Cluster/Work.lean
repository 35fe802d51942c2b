import Nzbd.Engine.Queue

/-!
# Units of work

What the authority of a cluster hands out: the download of a job, a range of the
articles of one file, the assembly of the ranges, and the post-processing.  The
name of the unit is the resource its lease is taken on, and everything a worker
hands back is filed under it.

A range is downloaded from a copy of the job that has only its articles and a
directory of its own (`workView`).

Every name begins with the id of the job, so units of jobs with different ids
have different names (`workJob_inj`).
-/

namespace Nzbd

inductive LeaseKind
  | download
  | post
  | segment
  | assemble

def LeaseKind.name : LeaseKind → Text
  | .download => text "download"
  | .post => text "post"
  | .segment => text "segment"
  | .assemble => text "assemble"

structure RangeScope where
  jobId : JobId
  fileId : FileId
  firstArticle : Nat
  lastArticle : Nat
  rangeIndex : Nat
  rangeCount : Nat

/-- What a lease is about, beyond the job. -/
inductive WorkScope
  | whole
  | range (scope : RangeScope)
  | assembly (jobId : JobId) (fileId : FileId)

/-- A name under a job. -/
def workJob (id : JobId) (rest : Text) : Text := text "work/job/" ++ showNat id ++ '/' :: rest

def resource (scope : RangeScope) : Text :=
  workJob scope.jobId (text "file/" ++ showNat scope.fileId ++ text "/articles/" ++
    showNat scope.firstArticle ++ '-' :: showNat scope.lastArticle)

def assemblyResource (job : JobId) (file : FileId) : Text :=
  workJob job (text "file/" ++ showNat file ++ text "/assemble")

/-- The resource of a lease; a scope of another kind is refused. -/
def grantResource (job : JobId) (scope : WorkScope) : LeaseKind → Option Text
  | .segment => match scope with
    | .range scope => some (resource scope)
    | _ => none
  | .assemble => match scope with
    | .assembly id file => some (assemblyResource id file)
    | _ => none
  | kind => some (workJob job kind.name)

def WorkScope.IsOf (job : JobId) : WorkScope → Prop
  | .range scope => scope.jobId = job
  | .assembly id _ => id = job
  | .whole => True

/-- The copy of a job a range is downloaded from: the articles of the range, in
a directory named after the range and the fence. -/
def workView (job : Job) (scope : RangeScope) (fence : Nat) : Except Text Job :=
  match job.file scope.fileId with
  | none => .error (text "range file disappeared")
  | some file =>
    let segments := file.segments.filter fun s =>
      scope.firstArticle ≤ s.number && s.number ≤ scope.lastArticle
    if segments = [] then .error (text "range contains no articles")
    else .ok (recomputeJobTotals { job with
      files := [{ file with segments := segments, finalized := false, crc32 := none }]
      dirName := text ".nzbd-cluster/range-work/job-" ++ showNat scope.jobId ++ text "/file-" ++
        showNat scope.fileId ++ '/' :: showNat scope.firstArticle ++ '-' ::
        showNat scope.lastArticle ++ text "-fence-" ++ showNat fence
      status := .queued })

def publicationReceipt (resource : Text) (fence : Nat) (resultId : Text) : Text :=
  text "complete:" ++ resource ++ ':' :: showNat fence ++ ':' :: resultId

/-- The receipt a script runs under. -/
def scriptReceipt (incarnation key : Text) : Text :=
  text "script:" ++ incarnation ++ ':' :: key

/-! ### Names of different jobs -/

theorem notMem_showNat {c : Char} (hc : ∀ d < 16, c ≠ Nat.digitChar d) (n : Nat) :
    c ∉ showNat n := by
  intro hm
  obtain ⟨d, hd, he⟩ := Numeral.mem_toDigits (.inl rfl) n c hm
  exact hc d hd he

theorem slash_notMem_showNat (n : Nat) : '/' ∉ showNat n := notMem_showNat (by decide) n

theorem split_at {c : Char} {a b r r' : Text} (ha : c ∉ a) (hb : c ∉ b)
    (h : a ++ c :: r = b ++ c :: r') : a = b ∧ r = r' := by
  induction a generalizing b with
  | nil =>
    cases b with
    | nil => exact ⟨rfl, (List.cons.inj h).2⟩
    | cons d b => exact absurd ((List.cons.inj h).1 ▸ List.mem_cons_self) hb
  | cons d a ih =>
    cases b with
    | nil => exact absurd ((List.cons.inj h).1 ▸ List.mem_cons_self) ha
    | cons e b =>
      obtain ⟨rfl, hrest⟩ := List.cons.inj h
      obtain ⟨rfl, hr⟩ := ih (fun hm => ha (List.mem_cons_of_mem _ hm))
        (fun hm => hb (List.mem_cons_of_mem _ hm)) hrest
      exact ⟨rfl, hr⟩

/-- **A name tells its job.** -/
theorem workJob_inj {a b : JobId} {r r' : Text} (h : workJob a r = workJob b r') : a = b := by
  rw [workJob, workJob, List.append_assoc, List.append_assoc, List.append_cancel_left_eq] at h
  exact showNat_inj (split_at (slash_notMem_showNat a) (slash_notMem_showNat b) h).1

theorem grantResource_workJob {kind : LeaseKind} {job : JobId} {scope : WorkScope} {r : Text}
    (h : grantResource job scope kind = some r) (hscope : scope.IsOf job) :
    ∃ rest, r = workJob job rest := by
  cases kind with
  | download => exact ⟨_, (Option.some.inj h).symm⟩
  | post => exact ⟨_, (Option.some.inj h).symm⟩
  | segment =>
    cases scope with
    | range scope =>
      obtain rfl : scope.jobId = job := hscope
      exact ⟨_, (Option.some.inj h).symm⟩
    | whole => exact absurd h (by simp [grantResource])
    | assembly id file => exact absurd h (by simp [grantResource])
  | assemble =>
    cases scope with
    | assembly id file =>
      obtain rfl : id = job := hscope
      exact ⟨_, (Option.some.inj h).symm⟩
    | whole => exact absurd h (by simp [grantResource])
    | range scope => exact absurd h (by simp [grantResource])

theorem publicationReceipt_workJob {a b : JobId} {r r' : Text} {fence fence' : Nat}
    {result result' : Text}
    (h : publicationReceipt (workJob a r) fence result =
      publicationReceipt (workJob b r') fence' result') : a = b := by
  have hshape : ∀ (id : JobId) (r : Text) (fence : Nat) (result : Text),
      publicationReceipt (workJob id r) fence result =
        text "complete:" ++ workJob id (r ++ ':' :: showNat fence ++ ':' :: result) := by
    intro id r fence result
    simp [publicationReceipt, workJob]
  rw [hshape, hshape, List.append_cancel_left_eq] at h
  exact workJob_inj h

end Nzbd
