import Nzbd.Lib.Bytes
import Nzbd.Lib.Chunks
import Nzbd.Lib.Crc32
import Nzbd.Cluster.Control

/-!
# Article ranges

A job with one file to download, and that a long one, is downloaded in ranges of
`targetArticles` articles.  The ranges are cut by position and named by the
numbers at their ends; the work view of a range takes the articles between the
numbers.  As the numbers go up along the file, the work views are the file again
(`Splittable.partition`).

`assemble` puts the accepted ranges together.  What it is told is not trusted:
each article is read from the payload of its range and checked against its
checksum, and the articles have to be those of the file and to lie end to end.
Where it succeeds the output is exactly the articles (`assemble_ok`).  But the job
that it returns has no other file: **a paused recovery volume is lost** (`ranges_faithful`).

The sealed job of a range and its payload are parameters.
-/

namespace Nzbd

open List Bytes

def targetArticles : Nat := 32

def scopes (job : Job) : List RangeScope :=
  match job.files.find? fun f => !f.paused with
  | none => []
  | some file =>
    if (job.files.filter fun f => !f.paused).length ≠ 1 ∨
        file.segments.length < targetArticles * 2 then []
    else
      let chunks := Chunks.chunks targetArticles file.segments
      chunks.zipIdx.map fun p =>
        { jobId := job.id
          fileId := file.id
          firstArticle := (p.1.head?.map (·.number)).getD 0
          lastArticle := (p.1.getLast?.map (·.number)).getD 0
          rangeIndex := p.2
          rangeCount := chunks.length }

structure AcceptedRange where
  scope : RangeScope
  resultRef : Text

structure AssembleScope where
  jobId : JobId
  fileId : FileId
  ranges : List AcceptedRange

/-! ### Assembling -/

/-- What has been read and written so far: the output and how long it has to be,
the spans that were written, and the states of the articles. -/
structure Assembly where
  output : List UInt8
  fileSize : Nat
  spans : List (Nat × Nat × Nat)
  terminal : List (Nat × SegmentState)

def Assembly.empty : Assembly := ⟨[], 0, [], []⟩

def saturatingAdd (a b : Nat) : Nat := min (a + b) (2 ^ 64 - 1)

def articleError (number : Nat) (what : String) : Text :=
  text "article " ++ showNat number ++ text what

def acceptArticle (scope : RangeScope) (input : List UInt8) (st : Assembly) (s : Segment) :
    Except Text Assembly :=
  if s.number < scope.firstArticle ∨ scope.lastArticle < s.number then
    .error (articleError s.number " escaped its accepted range")
  else match s.state with
  | .done offset len crc =>
    let data := (input.drop offset).take len
    if data.length ≠ len then .error (text "read " ++ articleError s.number "")
    else if Crc32.crc32 data ≠ crc then .error (articleError s.number " CRC mismatch")
    else if s.number ∈ st.terminal.map (·.1) then
      .error (articleError s.number " was supplied more than once")
    else .ok
      { output := writeAt st.output offset data
        fileSize := max st.fileSize (saturatingAdd offset len)
        spans := st.spans ++ [(offset, saturatingAdd offset len, s.number)]
        terminal := st.terminal ++ [(s.number, s.state)] }
  | _ => .error (articleError s.number " is not durably complete")

section Assemble

variable (sealedJob : Text → Except Text Job) (payload : Text → Text → Option (List UInt8))

/-- Copy the articles of one range. -/
def acceptRange (job : Job) (scope : AssembleScope) (filename : Text) (st : Assembly)
    (accepted : AcceptedRange) : Except Text Assembly :=
  if accepted.scope.jobId ≠ scope.jobId ∨ accepted.scope.fileId ≠ scope.fileId then
    .error (text "accepted range identity does not match assembly")
  else (sealedJob accepted.resultRef).bind fun partly =>
    match partly.file scope.fileId with
    | none => .error (text "accepted range names another file")
    | some file =>
      if partly.id ≠ job.id ∨ partly.files.length ≠ 1 ∨ file.filename ≠ filename then
        .error (text "accepted range job identity mismatch")
      else match payload accepted.resultRef file.filename with
        | none => .error (text "open accepted range payload")
        | some input => file.segments.foldlM (acceptArticle accepted.scope input) st

/-- Give the articles of the file their states; what is left over comes second. -/
def takeStates : List Segment → List (Nat × SegmentState) →
    Except Text (List Segment × List (Nat × SegmentState))
  | [], terminal => .ok ([], terminal)
  | s :: ss, terminal =>
    match terminal.find? (·.1 = s.number) with
    | none => .error (articleError s.number " has no accepted range")
    | some found =>
      (takeStates ss (terminal.filter (·.1 ≠ s.number))).map fun r =>
        ({ s with state := found.2 } :: r.1, r.2)

/-- Go along the spans, each of which has to start where the one before ends. -/
def sweep : Nat → List (Nat × Nat × Nat) → Except Text Nat
  | cursor, [] => .ok cursor
  | cursor, (start, stop, number) :: rest =>
    if start ≠ cursor ∨ stop ≤ start then
      .error (articleError number " creates an overlap or byte gap at " ++ showNat cursor)
    else sweep stop rest

/-- The supplied resources are those of the ranges, each once. -/
def sameResources (expected : List RangeScope) (ranges : List AcceptedRange) : Bool :=
  let wanted := expected.map resource
  let supplied := ranges.map fun a => resource a.scope
  wanted.all (· ∈ supplied) && supplied.all (· ∈ wanted) && supplied.dedup.length = ranges.length

/-- The job with its one file assembled, and the output. -/
def assemble (job : Job) (scope : AssembleScope) (fence : Nat) :
    Except Text (Job × List UInt8) :=
  if scope.jobId ≠ job.id then .error (text "assembly scope names another job")
  else
    let expected := scopes job
    if expected = [] ∨ expected.length ≠ scope.ranges.length then
      .error (text "assembly does not contain the exact expected range set")
    else if !sameResources expected scope.ranges then
      .error (text "assembly ranges overlap, duplicate, or leave a gap")
    else match job.file scope.fileId with
    | none => .error (text "assembly file disappeared")
    | some file =>
      (scope.ranges.foldlM (acceptRange sealedJob payload job scope file.filename) .empty).bind
        fun st => (takeStates file.segments st.terminal).bind fun (segments, left) =>
          if left ≠ [] then
            .error (text "assembly supplied articles outside the authoritative file")
          else (sweep 0 (st.spans.insertionSort fun a b => a.1 ≤ b.1)).bind fun cursor =>
            if cursor ≠ st.fileSize then .error (text "assembled byte coverage is incomplete")
            else
              let output := setLen st.fileSize st.output
              let wholeCrc := Crc32.crc32 output
              if file.crc32.any fun crc => crc ≠ wholeCrc then
                .error (text "assembled file CRC does not match the advertised whole-file CRC")
              else
                let done := { file with
                  segments := segments, crc32 := some wholeCrc, finalized := true }
                let files := (job.files.modifyFirst (·.id = scope.fileId) fun _ => done).filter
                  (·.id = scope.fileId)
                .ok (recomputeJobTotals { job with
                  files := files
                  dirName := text ".nzbd-cluster/assembly/job-" ++ showNat scope.jobId ++
                    text "/file-" ++ showNat scope.fileId ++ text "/fence-" ++ showNat fence
                  status := .completed
                  params := job.params ++ [(text "*Cluster:original-dir", job.dirName)] }, output)

end Assemble

/-! ### The ranges are the file -/

/-- A job with one file to download, whose articles are numbered upwards. -/
structure Splittable (job : Job) (file : FileEntry) : Prop where
  mem : file ∈ job.files
  unpaused : file.paused = false
  only : ∀ f ∈ job.files, f.paused = false → f = file
  nodup : (job.files.map (·.id)).Nodup
  long : targetArticles * 2 ≤ file.segments.length
  increasing : file.segments.Pairwise fun a b => a.number < b.number
  numbers : ∀ s ∈ file.segments, s.number < 2 ^ 32

variable {job : Job} {file : FileEntry}

/-- The range of a chunk of articles. -/
def rangeOf (job : Job) (file : FileEntry) (count : Nat) (p : List Segment × Nat) : RangeScope where
  jobId := job.id
  fileId := file.id
  firstArticle := (p.1.head?.map (·.number)).getD 0
  lastArticle := (p.1.getLast?.map (·.number)).getD 0
  rangeIndex := p.2
  rangeCount := count

theorem Splittable.filter_eq (h : Splittable job file) :
    (job.files.filter fun f => !f.paused) = [file] := by
  have hfiles : job.files.Nodup := .of_map _ h.nodup
  have hmem : ∀ f, f ∈ job.files.filter (fun f => !f.paused) ↔ f = file := by
    intro f
    rw [mem_filter]
    constructor
    · rintro ⟨hf, hp⟩
      exact h.only f hf (by simpa using hp)
    · rintro rfl
      exact ⟨h.mem, by simp [h.unpaused]⟩
  refine perm_singleton.mp ((perm_ext_iff_of_nodup (hfiles.filter _)
    (nodup_singleton _)).mpr fun f => ?_)
  rw [hmem, mem_singleton]

theorem Splittable.scopes_eq (h : Splittable job file) :
    scopes job = (Chunks.chunks targetArticles file.segments).zipIdx.map
      (rangeOf job file (Chunks.chunks targetArticles file.segments).length) := by
  have hfind : job.files.find? (fun f => !f.paused) = some file := by
    rw [← head?_filter, h.filter_eq]
    rfl
  rw [scopes, hfind]
  dsimp only
  rw [if_neg]
  · rfl
  · rw [h.filter_eq]
    have hlong := h.long
    simp only [length_singleton, ne_eq, not_true_eq_false, false_or]
    omega

theorem Splittable.file_eq (h : Splittable job file) : job.file file.id = some file :=
  find?_key_eq h.nodup h.mem

/-- **The work view of a range has the articles of its chunk.** -/
theorem Splittable.workView_eq (h : Splittable job file) {c : List Segment}
    (hc : c ∈ Chunks.chunks targetArticles file.segments) (i count fence : Nat) :
    ∃ view, workView job (rangeOf job file count (c, i)) fence = .ok view ∧
      view.files = [{ file with segments := c, finalized := false, crc32 := none }] := by
  have hne := Chunks.ne_nil_of_mem (by decide) hc
  obtain ⟨pre, post, hsplit⟩ := Chunks.exists_split hc
  have hkeys : (file.segments.filter fun s => (c.head hne).number ≤ s.number &&
      s.number ≤ (c.getLast hne).number) = c := by
    rw [hsplit]
    exact Chunks.filter_between (hsplit ▸ h.increasing) hne
  have hfirst : (rangeOf job file count (c, i)).firstArticle = (c.head hne).number := by
    rw [rangeOf, head?_eq_some_head hne]
    rfl
  have hlast : (rangeOf job file count (c, i)).lastArticle = (c.getLast hne).number := by
    rw [rangeOf, getLast?_eq_some_getLast hne]
    rfl
  have hfile : job.file (rangeOf job file count (c, i)).fileId = some file := h.file_eq
  rw [workView, hfile]
  simp only [hfirst, hlast, hkeys]
  rw [if_neg hne]
  exact ⟨_, rfl, rfl⟩

def articlesOf (job : Job) : List Segment := job.files.flatMap (·.segments)

theorem resource_inj {a b : RangeScope} (h : resource a = resource b) :
    a.jobId = b.jobId ∧ a.fileId = b.fileId ∧ a.firstArticle = b.firstArticle := by
  have hjob := workJob_inj h
  rw [resource, resource, hjob, workJob, workJob, append_cancel_left_eq] at h
  have hrest := (List.cons.inj h).2
  rw [append_assoc, append_assoc, append_assoc, append_assoc,
    append_assoc, append_assoc, append_cancel_left_eq] at hrest
  have harticles : ∀ r : Text, text "/articles/" ++ r = '/' :: (text "articles/" ++ r) :=
    fun _ => rfl
  rw [harticles, harticles] at hrest
  obtain ⟨hfile, hrest⟩ := split_at (slash_notMem_showNat _) (slash_notMem_showNat _) hrest
  rw [append_cancel_left_eq] at hrest
  have hdash : ∀ n, '-' ∉ showNat n := notMem_showNat (by decide)
  exact ⟨hjob, showNat_inj hfile, showNat_inj (split_at (hdash _) (hdash _) hrest).1⟩

theorem Splittable.views_of (h : Splittable job file) (fence : RangeScope → Nat) {count : Nat}
    {ps : List (List Segment × Nat)}
    (hps : ∀ p ∈ ps, p.1 ∈ Chunks.chunks targetArticles file.segments) :
    ∃ views : List Job, (ps.map (rangeOf job file count)).map
        (fun scope => workView job scope (fence scope)) = views.map .ok ∧
      views.map articlesOf = ps.map (·.1) := by
  induction ps with
  | nil => exact ⟨[], rfl, rfl⟩
  | cons p ps ih =>
    obtain ⟨views, hviews, harts⟩ := ih fun q hq => hps q (mem_cons_of_mem _ hq)
    obtain ⟨view, hview, hfiles⟩ := h.workView_eq (hps p mem_cons_self) p.2 count
      (fence (rangeOf job file count p))
    have hart : articlesOf view = p.1 := by
      rw [articlesOf, hfiles]
      exact append_nil _
    refine ⟨view :: views, ?_, ?_⟩
    · rw [map_cons, map_cons, map_cons, hviews, hview]
    · rw [map_cons, map_cons, harts, hart]

/-- **Article ranges partition the file**: their work views exist, are apart, and
have the articles of the file one after the other; their resources differ. -/
theorem Splittable.partition (h : Splittable job file) (fence : RangeScope → Nat) :
    ∃ views : List Job,
      (scopes job).map (fun scope => workView job scope (fence scope)) = views.map .ok ∧
      views.flatMap articlesOf = file.segments ∧
      views.Pairwise (fun v w => (articlesOf v).Disjoint (articlesOf w)) ∧
      ((scopes job).map resource).Nodup := by
  have hpairs : ((Chunks.chunks targetArticles file.segments).zipIdx.map (·.1)) =
      Chunks.chunks targetArticles file.segments := zipIdx_map_fst _ _
  have horder := Chunks.pairwise_chunks (by decide : 0 < targetArticles) h.increasing
  obtain ⟨views, hviews, harts⟩ := h.views_of fence
    (fun p hp => hpairs ▸ mem_map_of_mem hp)
  refine ⟨views, h.scopes_eq ▸ hviews, ?_, ?_, ?_⟩
  · rw [flatMap_def, harts, hpairs, Chunks.flatten_chunks (by decide)]
  · rw [← pairwise_map (f := articlesOf) (R := List.Disjoint), harts, hpairs]
    refine horder.imp fun hlt s hs hs' => ?_
    exact Nat.lt_irrefl _ (hlt s hs s hs')
  · rw [h.scopes_eq, map_map, nodup_iff_pairwise_ne, pairwise_map]
    have hidx : (Chunks.chunks targetArticles file.segments).zipIdx.Pairwise fun p q =>
        ∀ a ∈ p.1, ∀ b ∈ q.1, a.number < b.number := by
      rw [← hpairs, pairwise_map] at horder
      exact horder
    refine hidx.imp_of_mem fun {p q} hp hq hlt he => ?_
    have hfirst := (resource_inj he).2.2
    have hpne : p.1 ≠ [] := Chunks.ne_nil_of_mem (by decide) (hpairs ▸ mem_map_of_mem hp)
    have hqne : q.1 ≠ [] := Chunks.ne_nil_of_mem (by decide) (hpairs ▸ mem_map_of_mem hq)
    have hnum := hlt _ (head_mem hpne) _ (head_mem hqne)
    rw [rangeOf, rangeOf, head?_eq_some_head hpne, head?_eq_some_head hqne] at hfirst
    simp only [Option.map_some, Option.getD_some] at hfirst
    omega

/-! ### What an assembly has read -/

/-- An article as it was read: its number, where its bytes go, and the bytes. -/
structure Article where
  number : Nat
  offset : Nat
  crc : BitVec 32
  data : List UInt8

namespace Article

variable (a : Article)

def state : SegmentState := .done a.offset a.data.length a.crc

def piece : Piece := (a.offset, a.data)

def span : Nat × Nat × Nat := (a.offset, saturatingAdd a.offset a.data.length, a.number)

end Article

/-- The article is one of the segments, and its bytes are in the payload where the
segment says. -/
structure ReadFrom (segments : List Segment) (input : List UInt8) (a : Article) : Prop where
  mem : ∃ s ∈ segments, s.number = a.number ∧ s.state = a.state
  data : a.data = (input.drop a.offset).take a.data.length
  crc : Crc32.crc32 a.data = a.crc

theorem ReadFrom.mono {segments segments' : List Segment} {input : List UInt8} {a : Article}
    (h : ReadFrom segments input a) (hsub : ∀ s ∈ segments, s ∈ segments') :
    ReadFrom segments' input a := by
  obtain ⟨s, hs, hstate⟩ := h.mem
  exact ⟨⟨s, hsub s hs, hstate⟩, h.data, h.crc⟩

/-- The articles that an assembly is made of so far. -/
structure Assembly.Has (st : Assembly) (articles : List Article) : Prop where
  output : st.output = articles.foldl (fun c a => writeAt c a.offset a.data) []
  spans : st.spans = articles.map Article.span
  terminal : st.terminal = articles.map fun a => (a.number, a.state)
  nodup : (articles.map (·.number)).Nodup

theorem Assembly.has_empty : Assembly.empty.Has [] := ⟨rfl, rfl, rfl, nodup_nil⟩

theorem foldlM_cons_ok {σ α : Type} {f : σ → α → Except Text σ} {s t : σ} {x : α} {xs : List α}
    (h : (x :: xs).foldlM f s = .ok t) : ∃ u, f s x = .ok u ∧ xs.foldlM f u = .ok t := by
  rw [foldlM_cons] at h
  exact ok_of_bind h

variable {articles : List Article}

theorem acceptArticle_ok {scope : RangeScope} {input : List UInt8} {st st' : Assembly}
    {s : Segment} (hst : st.Has articles)
    (h : acceptArticle scope input st s = .ok st') :
    ∃ a, ReadFrom [s] input a ∧ st'.Has (articles ++ [a]) := by
  unfold acceptArticle at h
  by_cases hrange : s.number < scope.firstArticle ∨ scope.lastArticle < s.number
  · rw [if_pos hrange] at h
    cases h
  rw [if_neg hrange] at h
  split at h
  next offset len crc hstate =>
    dsimp only at h
    split_ifs at h with hlen hcrc hnew
    obtain rfl := Except.ok.inj h
    have hlen : ((input.drop offset).take len).length = len := by simpa using hlen
    have hcrc : Crc32.crc32 ((input.drop offset).take len) = crc := by simpa using hcrc
    refine ⟨⟨s.number, offset, crc, (input.drop offset).take len⟩, ⟨⟨s, by simp, rfl, ?_⟩, ?_, hcrc⟩,
      ?_, ?_, ?_, ?_⟩
    · rw [hstate, Article.state, hlen]
    · rw [hlen]
    · rw [foldl_append, ← hst.output]
      rfl
    · rw [map_append, ← hst.spans, map_singleton, Article.span, hlen]
    · rw [map_append, ← hst.terminal, map_singleton, Article.state, hlen, hstate]
    · rw [map_append]
      refine nodup_append.mpr ⟨hst.nodup, nodup_singleton _, ?_⟩
      rintro n hn m hm rfl
      rw [hst.terminal, map_map] at hnew
      have hm : n = s.number := mem_singleton.mp hm
      exact hnew (hm ▸ hn)
  next => exact absurd h (by simp)

theorem acceptArticles_ok {scope : RangeScope} {input : List UInt8} {segments : List Segment}
    {st st' : Assembly} (hst : st.Has articles)
    (h : segments.foldlM (acceptArticle scope input) st = .ok st') :
    ∃ more, (∀ a ∈ more, ReadFrom segments input a) ∧ st'.Has (articles ++ more) := by
  induction segments generalizing st articles with
  | nil =>
    obtain rfl := Except.ok.inj h
    exact ⟨[], by simp, by simpa using hst⟩
  | cons s ss ih =>
    obtain ⟨st₁, hs, hrest⟩ := foldlM_cons_ok h
    obtain ⟨a, ha, hst₁⟩ := acceptArticle_ok hst hs
    obtain ⟨more, hmore, hst'⟩ := ih hst₁ hrest
    refine ⟨a :: more, fun b hb => ?_, ?_⟩
    · rcases mem_cons.mp hb with rfl | hb
      · exact ha.mono (by simp)
      · exact (hmore b hb).mono fun x hx => mem_cons_of_mem _ hx
    · rwa [append_assoc, singleton_append] at hst'

section Assemble

variable {sealedJob : Text → Except Text Job} {payload : Text → Text → Option (List UInt8)}

def Supplied (sealedJob : Text → Except Text Job) (payload : Text → Text → Option (List UInt8))
    (fileId : FileId) (ranges : List AcceptedRange) (a : Article) : Prop :=
  ∃ accepted ∈ ranges, ∃ partly, sealedJob accepted.resultRef = .ok partly ∧
    ∃ f, partly.file fileId = some f ∧ ∃ input, payload accepted.resultRef f.filename = some input ∧
      ReadFrom f.segments input a

theorem acceptRange_ok {scope : AssembleScope} {filename : Text} {st st' : Assembly}
    {accepted : AcceptedRange} (hst : st.Has articles)
    (h : acceptRange sealedJob payload job scope filename st accepted = .ok st') :
    accepted.scope.fileId = scope.fileId ∧
      ∃ more, (∀ a ∈ more, Supplied sealedJob payload scope.fileId [accepted] a) ∧
        st'.Has (articles ++ more) := by
  unfold acceptRange at h
  split_ifs at h with hid
  obtain ⟨partly, hsealed, h⟩ := ok_of_bind h
  cases hfile : partly.file scope.fileId with
  | none => simp [hfile] at h
  | some f =>
    simp only [hfile] at h
    split_ifs at h
    cases hinput : payload accepted.resultRef f.filename with
    | none => simp [hinput] at h
    | some input =>
      simp only [hinput] at h
      obtain ⟨more, hmore, hst'⟩ := acceptArticles_ok hst h
      refine ⟨?_, more, fun a ha => ?_, hst'⟩
      · by_contra hne
        exact hid (.inr hne)
      · exact ⟨accepted, mem_singleton_self _, partly, hsealed, f, hfile, input, hinput,
          hmore a ha⟩

theorem Supplied.mono {fileId : FileId} {ranges ranges' : List AcceptedRange} {a : Article}
    (h : Supplied sealedJob payload fileId ranges a) (hsub : ∀ r ∈ ranges, r ∈ ranges') :
    Supplied sealedJob payload fileId ranges' a := by
  obtain ⟨accepted, hmem, hrest⟩ := h
  exact ⟨accepted, hsub _ hmem, hrest⟩

/-- **Every article that is copied comes from an accepted range.** -/
theorem acceptRanges_ok {scope : AssembleScope} {filename : Text} {ranges : List AcceptedRange}
    {st st' : Assembly} (hst : st.Has articles)
    (h : ranges.foldlM (acceptRange sealedJob payload job scope filename) st = .ok st') :
    (∀ accepted ∈ ranges, accepted.scope.fileId = scope.fileId) ∧
      ∃ more, (∀ a ∈ more, Supplied sealedJob payload scope.fileId ranges a) ∧
        st'.Has (articles ++ more) := by
  induction ranges generalizing st articles with
  | nil =>
    obtain rfl := Except.ok.inj h
    exact ⟨by simp, [], by simp, by simpa using hst⟩
  | cons r rs ih =>
    obtain ⟨st₁, hr, hrest⟩ := foldlM_cons_ok h
    obtain ⟨hid, some₁, hsome₁, hst₁⟩ := acceptRange_ok hst hr
    obtain ⟨hids, more, hmore, hst'⟩ := ih hst₁ hrest
    refine ⟨fun accepted ha => ?_, some₁ ++ more, fun b hb => ?_, ?_⟩
    · rcases mem_cons.mp ha with rfl | ha
      · exact hid
      · exact hids accepted ha
    · rcases mem_append.mp hb with hb | hb
      · exact (hsome₁ b hb).mono (by simp)
      · exact (hmore b hb).mono fun x hx => mem_cons_of_mem _ hx
    · rwa [append_assoc] at hst'

end Assemble

/-! ### What the checks give -/

theorem perm_cons_filter {n : Nat} {x : Nat × SegmentState} {terminal : List (Nat × SegmentState)}
    (hn : (terminal.map (·.1)).Nodup) (h : terminal.find? (·.1 = n) = some x) :
    terminal.Perm (x :: terminal.filter (·.1 ≠ n)) := by
  induction terminal with
  | nil => cases h
  | cons y ys ih =>
    obtain ⟨hy, hys⟩ := nodup_cons.mp hn
    by_cases hyn : y.1 = n
    · rw [find?_cons_of_pos (by simpa using hyn)] at h
      obtain rfl := Option.some.inj h
      have hrest : ys.filter (·.1 ≠ n) = ys := by
        refine filter_eq_self.mpr fun z hz => ?_
        have hne : z.1 ≠ n := fun hzn => hy (mem_map.mpr ⟨z, hz, hzn.trans hyn.symm⟩)
        simpa using hne
      rw [filter_cons_of_neg (by simpa using hyn), hrest]
    · rw [find?_cons_of_neg (by simpa using hyn)] at h
      rw [filter_cons_of_pos (by simpa using hyn)]
      exact ((ih hys h).cons y).trans (.swap _ _ _)

/-- **Every article of the file gets a state**, and the states that are left over are
those of other articles. -/
theorem takeStates_ok {segments segments' : List Segment}
    {terminal left : List (Nat × SegmentState)} (hn : (terminal.map (·.1)).Nodup)
    (h : takeStates segments terminal = .ok (segments', left)) :
    terminal.Perm ((segments'.map fun s => (s.number, s.state)) ++ left) ∧
      List.Forall₂ (fun s t => t = { s with state := t.state }) segments segments' := by
  induction segments generalizing terminal segments' with
  | nil =>
    obtain ⟨rfl, rfl⟩ := Prod.mk.inj (Except.ok.inj h)
    exact ⟨.refl _, .nil⟩
  | cons s ss ih =>
    rw [takeStates] at h
    cases hfind : terminal.find? (·.1 = s.number) with
    | none => simp [hfind] at h
    | some found =>
      simp only [hfind] at h
      cases hrest : takeStates ss (terminal.filter (·.1 ≠ s.number)) with
      | error e =>
        rw [hrest] at h
        cases h
      | ok r =>
        rw [hrest] at h
        obtain ⟨rfl, rfl⟩ := Prod.mk.inj (Except.ok.inj h)
        have hsub : ((terminal.filter (·.1 ≠ s.number)).map (·.1)).Nodup :=
          (filter_sublist.map _).nodup hn
        obtain ⟨hperm, hall⟩ := ih hsub hrest
        have hnum : found.1 = s.number := by simpa using find?_some hfind
        refine ⟨(perm_cons_filter hn hfind).trans ?_, .cons rfl hall⟩
        rw [map_cons, cons_append]
        have hpair : (s.number, found.2) = found := Prod.ext hnum.symm rfl
        exact hpair ▸ hperm.cons found

theorem saturatingAdd_eq {a b : Nat} (h : a + b < 2 ^ 64) : saturatingAdd a b = a + b := by
  rw [saturatingAdd]
  omega

/-- Spans without a gap: the articles lie end to end.  The ends do not saturate,
since there are at most as many articles as there are numbers. -/
theorem sweep_ok {cursor cursor' : Nat}
    (hlen : ∀ a ∈ articles, a.data.length < 2 ^ 32)
    (hroom : cursor + articles.length * (2 ^ 32 - 1) < 2 ^ 64)
    (h : sweep cursor (articles.map Article.span) = .ok cursor') :
    EndToEnd cursor (articles.map Article.piece) ∧
      cursor' = cursor + (joined (articles.map Article.piece)).length := by
  induction articles generalizing cursor with
  | nil =>
    obtain rfl := Except.ok.inj h
    exact ⟨trivial, rfl⟩
  | cons a as ih =>
    rw [map_cons, Article.span, sweep] at h
    split_ifs at h with hgap
    have hstart : a.offset = cursor := by
      by_contra hne
      exact hgap (.inl hne)
    have ha := hlen a mem_cons_self
    rw [length_cons, Nat.succ_mul] at hroom
    rw [saturatingAdd_eq (by omega), hstart] at h
    obtain ⟨hend, hcur⟩ := ih (fun b hb => hlen b (mem_cons_of_mem _ hb)) (by omega) h
    refine ⟨⟨hstart, hend⟩, ?_⟩
    have hjoin : joined ((a :: as).map Article.piece) = a.data ++ joined (as.map Article.piece) := rfl
    rw [hjoin, length_append, hcur, Nat.add_assoc]

theorem length_le_of_numbers {l : List Nat} {n : Nat} (hn : l.Nodup) (h : ∀ x ∈ l, x < n) :
    l.length ≤ n := by
  have hsub : l ⊆ List.range n := fun x hx => mem_range.mpr (h x hx)
  simpa using (hn.subperm hsub).length_le

/-! ### Faithful assembly -/

section Assemble

variable {sealedJob : Text → Except Text Job} {payload : Text → Text → Option (List UInt8)}

/-- The length of an article is an integer of 32 bits. -/
def SealedLengths (sealedJob : Text → Except Text Job) : Prop :=
  ∀ ref partly, sealedJob ref = .ok partly → ∀ f ∈ partly.files, ∀ s ∈ f.segments,
    ∀ offset len crc, s.state = .done offset len crc → len < 2 ^ 32

theorem Supplied.length_lt (hsealed : SealedLengths sealedJob) {fileId : FileId}
    {ranges : List AcceptedRange} {a : Article}
    (h : Supplied sealedJob payload fileId ranges a) : a.data.length < 2 ^ 32 := by
  obtain ⟨accepted, -, partly, hjob, f, hf, input, -, ⟨s, hs, -, hstate⟩, -, -⟩ := h
  exact hsealed _ _ hjob f (mem_of_find?_eq_some hf) s hs _ _ _ hstate

/-- The output is exactly the articles, one behind the other, and the file of the
job has their states. -/
structure Faithful (sealedJob : Text → Except Text Job)
    (payload : Text → Text → Option (List UInt8)) (ranges : List AcceptedRange)
    (file : FileEntry) (job' : Job) (output : List UInt8) (articles : List Article) : Prop where
  supplied : ∀ a ∈ articles, Supplied sealedJob payload file.id ranges a
  endToEnd : EndToEnd 0 (articles.map Article.piece)
  bytes : output = joined (articles.map Article.piece)
  length : output.length = (articles.map (·.data.length)).sum
  files : ∃ segments,
    job'.files = [{ file with
      segments := segments, crc32 := some (Crc32.crc32 output), finalized := true }] ∧
    List.Forall₂ (fun s t => t = { s with state := t.state }) file.segments segments ∧
    (segments.map fun s => (s.number, s.state)).Perm (articles.map fun a => (a.number, a.state))

theorem length_joined (articles : List Article) :
    (joined (articles.map Article.piece)).length = (articles.map (·.data.length)).sum := by
  rw [joined, length_flatMap, map_map]
  rfl

theorem setLen_foldl_writeAt {ps l : List Piece} (hm : ps.Perm l) (hl : EndToEnd 0 l) :
    setLen (joined l).length (ps.foldl (fun c p => writeAt c p.1 p.2) []) = joined l := by
  refine ext_getD (length_setLen _ _) fun i hi => ?_
  rw [length_setLen] at hi
  rw [getD_setLen, if_pos hi]
  exact (congrFun (foldl_writeAt_overlay ps []) i).trans (foldl_overlay_of_perm hm hl _ hi)

theorem insertionSort_span (articles : List Article) :
    (articles.map Article.span).insertionSort (fun a b => a.1 ≤ b.1) =
      (articles.insertionSort fun a b => a.offset ≤ b.offset).map Article.span :=
  (map_insertionSort (fun a b : Article => a.offset ≤ b.offset) (fun a b => a.1 ≤ b.1)
    Article.span articles fun _ _ _ _ => Iff.rfl).symm

theorem Splittable.fileId_eq (h : Splittable job file) {ranges : List AcceptedRange}
    (hsame : sameResources (scopes job) ranges = true) {a : AcceptedRange} (ha : a ∈ ranges) :
    a.scope.fileId = file.id := by
  simp only [sameResources, Bool.and_eq_true, all_eq_true, decide_eq_true_eq] at hsame
  obtain ⟨e, he, hres⟩ := mem_map.mp (hsame.1.2 _ (mem_map_of_mem ha))
  rw [h.scopes_eq] at he
  obtain ⟨p, -, rfl⟩ := mem_map.mp he
  exact (resource_inj hres).2.1.symm

theorem filter_modifyFirst {files : List FileEntry} {f g : FileEntry}
    (hn : (files.map (·.id)).Nodup) (hf : f ∈ files) (hg : g.id = f.id) :
    (files.modifyFirst (·.id = f.id) fun _ => g).filter (·.id = f.id) = [g] := by
  induction files with
  | nil => exact absurd hf not_mem_nil
  | cons x xs ih =>
    obtain ⟨hx, hxs⟩ := nodup_cons.mp hn
    by_cases hxf : x.id = f.id
    · have hrest : xs.filter (·.id = f.id) = [] := by
        refine filter_eq_nil_iff.mpr fun y hy he => ?_
        have he : y.id = f.id := by simpa using he
        exact hx (mem_map.mpr ⟨y, hy, he.trans hxf.symm⟩)
      rw [modifyFirst_cons_pos (by simpa using hxf), filter_cons_of_pos (by simpa using hg),
        hrest]
    · have hin : f ∈ xs := (mem_cons.mp hf).resolve_left (by rintro rfl; exact hxf rfl)
      rw [modifyFirst_cons_neg (by simpa using hxf),
        filter_cons_of_neg (by simpa using hxf)]
      exact ih hxs hin

/-- **Assembly is faithful.** -/
theorem assemble_ok (h : Splittable job file) (hsealed : SealedLengths sealedJob)
    {scope : AssembleScope} {fence : Nat} {job' : Job} {output : List UInt8}
    (hok : assemble sealedJob payload job scope fence = .ok (job', output)) :
    ∃ articles, Faithful sealedJob payload scope.ranges file job' output articles := by
  unfold assemble at hok
  split_ifs at hok with hjob
  dsimp only at hok
  split_ifs at hok with hcount hsame
  simp only [Bool.not_eq_true', Bool.not_eq_false] at hsame
  obtain ⟨r, hr⟩ : ∃ r, r ∈ scope.ranges := by
    refine exists_mem_of_ne_nil _ fun hnil => ?_
    rw [hnil] at hcount
    simp at hcount
  cases hfile : job.file scope.fileId with
  | none => simp [hfile] at hok
  | some f =>
    simp only [hfile] at hok
    obtain ⟨st, hloop, hok⟩ := ok_of_bind hok
    obtain ⟨⟨segments, left⟩, htake, hok⟩ := ok_of_bind hok
    dsimp only at hok
    by_cases hleft : left ≠ []
    · rw [if_pos hleft] at hok
      cases hok
    rw [if_neg hleft] at hok
    obtain ⟨cursor, hsweep, hok⟩ := ok_of_bind hok
    split_ifs at hok with hcursor hcrc
    obtain ⟨rfl, rfl⟩ := Prod.mk.inj (Except.ok.inj hok)
    obtain ⟨hids, articles, hsupplied, hhas⟩ := acceptRanges_ok Assembly.has_empty hloop
    rw [nil_append] at hhas
    have hid : scope.fileId = file.id := (hids r hr).symm.trans (h.fileId_eq hsame hr)
    obtain rfl : file = f := Option.some.inj (h.file_eq.symm.trans (hid ▸ hfile))
    -- the articles are those of the file
    have hnodup : (st.terminal.map (·.1)).Nodup := by
      rw [hhas.terminal, map_map]
      exact hhas.nodup
    obtain ⟨hperm, hall⟩ := takeStates_ok hnodup htake
    obtain rfl : left = [] := by simpa using hleft
    rw [append_nil, hhas.terminal] at hperm
    have hcount : articles.length ≤ 2 ^ 32 := by
      have hdistinct : (file.segments.map (·.number)).Nodup :=
        pairwise_map.mpr (h.increasing.imp fun hlt => Nat.ne_of_lt hlt)
      have hle := length_le_of_numbers hdistinct fun n hn => by
        obtain ⟨s, hs, rfl⟩ := mem_map.mp hn
        exact h.numbers s hs
      have hlen := hperm.length_eq
      rw [length_map, length_map, ← hall.length_eq] at hlen
      rw [length_map] at hle
      omega
    -- and lie end to end, once they are sorted
    have hsorted := perm_insertionSort (fun a b : Article => a.offset ≤ b.offset) articles
    rw [hhas.spans, insertionSort_span] at hsweep
    obtain ⟨hend, hcur⟩ := sweep_ok
      (fun a ha => (hsupplied a (hsorted.mem_iff.mp ha)).length_lt hsealed)
      (by rw [hsorted.length_eq]; omega) hsweep
    rw [Nat.zero_add] at hcur
    have hsize : st.fileSize = cursor := by
      by_contra hne
      exact hcursor (Ne.symm hne)
    have hbytes : setLen st.fileSize st.output = joined
        ((articles.insertionSort fun a b => a.offset ≤ b.offset).map Article.piece) := by
      have hfold : st.output =
          (articles.map Article.piece).foldl (fun c p => writeAt c p.1 p.2) [] := by
        rw [hhas.output, foldl_map]
        rfl
      rw [hfold, hsize, hcur]
      exact setLen_foldl_writeAt (hsorted.symm.map _) hend
    refine ⟨_, fun a ha => hid ▸ hsupplied a (hsorted.mem_iff.mp ha), hend, hbytes, ?_, segments,
      ?_, hall, hperm.symm.trans (hsorted.symm.map _)⟩
    · rw [hbytes, length_joined]
    · rw [hid]
      exact filter_modifyFirst h.nodup h.mem rfl

/-- **Article ranges partition the file and assembly is faithful**, but for the
other files of the job: they are kept just when there are none. -/
theorem ranges_faithful (h : Splittable job file) :
    (∀ fence : RangeScope → Nat, ∃ views : List Job,
      (scopes job).map (fun scope => workView job scope (fence scope)) = views.map .ok ∧
      views.flatMap articlesOf = file.segments ∧
      views.Pairwise (fun v w => (articlesOf v).Disjoint (articlesOf w)) ∧
      ((scopes job).map resource).Nodup) ∧
    ∀ (sealedJob : Text → Except Text Job) (payload : Text → Text → Option (List UInt8)),
      SealedLengths sealedJob → ∀ scope fence job' output,
      assemble sealedJob payload job scope fence = .ok (job', output) →
      (∃ articles, Faithful sealedJob payload scope.ranges file job' output articles) ∧
      ((∀ g ∈ job.files, g ≠ file → g ∈ job'.files) ↔ job.files = [file]) := by
  refine ⟨h.partition, fun sealedJob payload hsealed scope fence job' output hok => ?_⟩
  obtain ⟨articles, hfaithful⟩ := assemble_ok h hsealed hok
  refine ⟨⟨articles, hfaithful⟩, fun hkept => ?_, fun hone g hg hne => ?_⟩
  · obtain ⟨segments, hfiles, -⟩ := hfaithful.files
    -- what is kept has another id than the file that is left
    have hall : ∀ g ∈ job.files, g = file := by
      intro g hg
      by_contra hne
      have hin := hkept g hg hne
      rw [hfiles] at hin
      have hid : g.id = file.id := by rw [mem_singleton.mp hin]
      exact hne (inj_on_of_nodup_map h.nodup hg h.mem hid)
    have hperm : job.files.Perm [file] :=
      (perm_ext_iff_of_nodup (.of_map _ h.nodup) (nodup_singleton _)).mpr fun g =>
        ⟨fun hg => mem_singleton.mpr (hall g hg),
          fun hg => mem_singleton.mp hg ▸ h.mem⟩
    exact perm_singleton.mp hperm
  · rw [hone] at hg
    exact absurd (mem_singleton.mp hg) hne

end Assemble

/-! ### A recovery volume -/

def episodeFile (state : Nat → SegmentState) : FileEntry where
  id := 1
  filename := text "episode.mkv"
  isPar2 := false
  paused := false
  date := none
  segments := (List.range 64).map fun i => ⟨text "m", i + 1, 1, state i⟩
  crc32 := none
  finalized := false

def recoveryVolume : FileEntry where
  id := 2
  filename := text "episode.vol0+1.par2"
  isPar2 := true
  paused := true
  date := none
  segments := [⟨text "p", 1, 1, .pending⟩]
  crc32 := none
  finalized := false

def episodeJob (files : List FileEntry) : Job :=
  { QueueState.newJob 0 1 .nzb (text "episode") (text "episode") none 0 .downloading with
    files := files
    totals := jobTotals files }

def byteCrc : BitVec 32 := Crc32.crc32 [0]

/-- What the node with the range `ref` has sealed. -/
def episodeSealed (ref : Text) : Except Text Job :=
  let f := episodeFile fun i => .done i 1 byteCrc
  .ok (episodeJob [{ f with segments :=
    (if ref = text "a" then f.segments.take 32 else f.segments.drop 32) }])

def episodePayload (_ref _filename : Text) : Option (List UInt8) := some (List.replicate 64 0)

def episodeScope (files : List FileEntry) : AssembleScope where
  jobId := 1
  fileId := 1
  ranges := ((scopes (episodeJob files)).zip [text "a", text "b"]).map fun p => ⟨p.1, p.2⟩

def episode : FileEntry := episodeFile fun _ => .pending

theorem splittable_episode {files : List FileEntry} (hmem : episode ∈ files)
    (honly : ∀ f ∈ files, f.paused = false → f = episode) (hnodup : (files.map (·.id)).Nodup) :
    Splittable (episodeJob files) episode where
  mem := hmem
  unpaused := rfl
  only := honly
  nodup := hnodup
  long := by decide
  increasing := by decide +kernel
  numbers := by decide +kernel

theorem sealedLengths_episode : SealedLengths episodeSealed := by
  intro ref partly hjob f hf s hs offset len crc hstate
  obtain rfl := Except.ok.inj hjob
  obtain rfl := mem_singleton.mp hf
  have hall : s ∈ (episodeFile fun i => .done i 1 byteCrc).segments := by
    dsimp only at hs
    split at hs
    · exact mem_of_mem_take hs
    · exact mem_of_mem_drop hs
  obtain ⟨i, -, rfl⟩ := mem_map.mp hall
  obtain ⟨-, rfl, -⟩ := SegmentState.done.inj hstate
  decide

theorem ranges_faithful_episode :
    ∃ job' articles, Faithful episodeSealed episodePayload (episodeScope [episode]).ranges episode
      job' (List.replicate 64 0) articles := by
  have hrun : (assemble episodeSealed episodePayload (episodeJob [episode])
      (episodeScope [episode]) 7).toOption.map (·.2) = some (List.replicate 64 0) := by
    decide +kernel
  cases hok : assemble episodeSealed episodePayload (episodeJob [episode])
      (episodeScope [episode]) 7 with
  | error e => simp [hok, Except.toOption] at hrun
  | ok r =>
    obtain ⟨job', output⟩ := r
    obtain rfl : output = List.replicate 64 0 := by simpa [hok, Except.toOption] using hrun
    obtain ⟨⟨articles, hfaithful⟩, -⟩ := (ranges_faithful (splittable_episode (by simp) (by simp)
      (by simp))).2 _ _ sealedLengths_episode _ _ _ _ hok
    exact ⟨job', articles, hfaithful⟩

/-- The recovery volume is no longer in the job. -/
theorem not_kept_recoveryVolume :
    ¬ ∀ (job : Job) (file : FileEntry), Splittable job file →
      ∀ (sealedJob : Text → Except Text Job) (payload : Text → Text → Option (List UInt8)),
      SealedLengths sealedJob → ∀ scope fence job' output,
      assemble sealedJob payload job scope fence = .ok (job', output) →
      ∀ g ∈ job.files, g ≠ file → g ∈ job'.files := by
  intro hall
  have hrun : (assemble episodeSealed episodePayload (episodeJob [episode, recoveryVolume])
      (episodeScope [episode, recoveryVolume]) 7).toOption.map (·.1.files.map (·.id)) =
        some [1] := by
    decide +kernel
  cases hok : assemble episodeSealed episodePayload (episodeJob [episode, recoveryVolume])
      (episodeScope [episode, recoveryVolume]) 7 with
  | error e => simp [hok, Except.toOption] at hrun
  | ok r =>
    have hids : r.1.files.map (·.id) = [1] := by simpa [hok, Except.toOption] using hrun
    have hkept := hall _ _ (splittable_episode (by simp) (by simp [recoveryVolume]) (by decide))
      _ _ sealedLengths_episode _ _ _ _ hok recoveryVolume (by simp [episodeJob]) (by decide)
    have hid : recoveryVolume.id ∈ r.1.files.map (·.id) := mem_map_of_mem hkept
    rw [hids] at hid
    exact absurd hid (by decide)

end Nzbd
