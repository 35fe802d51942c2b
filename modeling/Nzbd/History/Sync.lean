import Nzbd.Lib.Lines
import Nzbd.History.Log

/-!
# Incremental ingestion is full replay

A pass of `replayLogs` reads what is new in the files, and merges the keys that this
touches over all files.  Any pass, full or not, brings the index where a replay of
every complete line would bring it (`reconcile_db`): what a key says that is not touched
is settled in the index already.

`Synced` is the invariant of an index between its passes.  The logs may change in
between: they are appended to, and files appear, vanish or are replaced by others with
an inode of their own.
-/

namespace Nzbd.History

open List Merging
open State (lf)
open Lines
open Index

/-! ### What a scan finds -/

variable {c : LogCodec}

/-- The entries of some lines, each at its offset. -/
def entriesAt (c : LogCodec) (start : Nat) (lines : List (List UInt8)) : List Contribution :=
  (numbered start lines).filterMap fun l =>
    if c.probe l.2 then none else (c.entry l.2).map (l.1, ·)

/-- The entries that are not too old. -/
def recent (floor : Int) (es : List Contribution) : List Contribution :=
  es.filter fun e => floor ≤ e.2.completedAtUnix

variable (start : Nat)

theorem numbered_append (ls ls' : List (List UInt8)) :
    numbered start (ls ++ ls') =
      numbered start ls ++ numbered (start + (ls.map fun l => l.length + 1).sum) ls' := by
  induction ls generalizing start with
  | nil => rfl
  | cons l ls ih =>
    rw [cons_append, numbered, numbered, ih, map_cons, sum_cons, cons_append]
    congr 3
    omega

theorem entriesAt_cons (l : List UInt8) (ls : List (List UInt8)) :
    entriesAt c start (l :: ls) =
      (if c.probe l then none else (c.entry l).map (start, ·)).toList ++
        entriesAt c (start + l.length + 1) ls := by
  by_cases hp : c.probe l
  · simp [entriesAt, numbered, hp]
  · cases he : c.entry l with
    | none => simp [entriesAt, numbered, hp, he]
    | some e => simp [entriesAt, numbered, hp, he]

theorem entriesAt_append (ls ls' : List (List UInt8)) :
    entriesAt c start (ls ++ ls') =
      entriesAt c start ls ++ entriesAt c (start + (ls.map fun l => l.length + 1).sum) ls' := by
  rw [entriesAt, numbered_append, filterMap_append]
  rfl

theorem le_of_mem_numbered {start : Nat} {ls : List (List UInt8)} {x : Nat × List UInt8}
    (h : x ∈ numbered start ls) : start ≤ x.1 := by
  induction ls generalizing start with
  | nil => exact absurd h not_mem_nil
  | cons l ls ih =>
    rcases mem_cons.mp h with rfl | h
    · exact Nat.le_refl _
    · have := ih h
      omega

theorem pairwise_numbered (ls : List (List UInt8)) :
    (numbered start ls).Pairwise fun a b => a.1 < b.1 := by
  induction ls generalizing start with
  | nil => exact .nil
  | cons l ls ih =>
    refine .cons (fun x hx => ?_) (ih _)
    have := le_of_mem_numbered hx
    simp only
    omega

theorem pairwise_entriesAt (ls : List (List UInt8)) :
    (entriesAt c start ls).Pairwise fun a b => a.1 < b.1 := by
  refine List.Pairwise.filterMap _ (fun x y hxy a ha b hb => ?_) (pairwise_numbered start ls)
  have hfst : ∀ {z : Nat × List UInt8} {d : Contribution},
      (if c.probe z.2 then none else (c.entry z.2).map (z.1, ·)) = some d → d.1 = z.1 := by
    intro z d hd
    split at hd
    · nomatch hd
    · obtain ⟨e, -, rfl⟩ := Option.map_eq_some_iff.mp hd
      rfl
  rw [hfst ha, hfst hb]
  exact hxy

theorem foldl_scanLine (floor : Int) (before : List Contribution)
    (ls : List (List UInt8)) (st : Scan) :
    (numbered start ls).foldl (scanLine c floor before) st =
      { tombstones := st.tombstones ++ ls.filterMap (tombstoneOf c)
        affected := st.affected ++ (recent floor (entriesAt c start ls)).map (·.2.key)
        entries := (recent floor (entriesAt c start ls)).foldl
          (contributions.insertInto before) st.entries } := by
  induction ls generalizing start st with
  | nil => simp [numbered, entriesAt, recent]
  | cons l ls ih =>
    rw [numbered, foldl_cons, ih]
    rw [entriesAt_cons]
    by_cases hp : c.probe l
    · cases ht : c.tombstone l with
      | none => simp [scanLine, tombstoneOf, hp, ht]
      | some k => simp [scanLine, tombstoneOf, hp, ht]
    · cases he : c.entry l with
      | none => simp [scanLine, tombstoneOf, hp, he]
      | some e =>
        by_cases hf : floor ≤ e.completedAtUnix
        · simp [scanLine, tombstoneOf, hp, he, hf, recent]
        · simp [scanLine, tombstoneOf, hp, he, hf, recent]

/-! ### One file -/

/-- What a file with this content says of a key. -/
def said (c : LogCodec) (b : List UInt8) (k : Key) : Option Contribution :=
  contributions.summary (contributions.under k (entriesAt c 0 (completeLines b)))

/-- The tombstones in a file with this content. -/
def tombstonesIn (c : LogCodec) (b : List UInt8) : List Key :=
  (completeLines b).filterMap (tombstoneOf c)

structure ReadUpTo (c : LogCodec) (floor : Int) (o : FileState) (b : List UInt8) : Prop where
  offset : o.offset = (joined lf (completeLines b)).length
  len : o.fingerprint.len = b.length
  entries : ∀ k : Key, floor ≤ k.2 → contributions.lookup k o.entries = said c b k

/-- What is known of a file from the last pass.  If it is the same file, it has only been
appended to. -/
structure Cached (c : LogCodec) (floor : Int) (db : Index) (o : FileState) (f : LogFile)
    (b : List UInt8) : Prop where
  read : ReadUpTo c floor o b
  buried : ∀ k ∈ tombstonesIn c b, k ∈ db.tombstones
  appended : o.fingerprint.ino = f.ino → b <+: f.bytes

theorem ReadUpTo.mono {floor floor' : Int} {o : FileState} {b : List UInt8}
    (h : ReadUpTo c floor o b) (hle : floor ≤ floor') : ReadUpTo c floor' o b :=
  ⟨h.offset, h.len, fun k hk => h.entries k (hle.trans hk)⟩

theorem under_recent {floor : Int} {k : Key} (hk : floor ≤ k.2) (es : List Contribution) :
    contributions.under k (recent floor es) = contributions.under k es := by
  rw [under, recent, filter_filter, under]
  refine filter_congr fun e _ => ?_
  by_cases he : contributions.key e = k
  · have : e.2.completedAtUnix = k.2 := congrArg Prod.snd he
    simp [he, this, hk]
  · simp [he]

theorem scanFile_cases {full : Bool} {floor : Int} {db : Index} {old : Option FileState}
    {f : Text × LogFile} (hold : ∀ o, old = some o → ∃ b, Cached c floor db o f.2 b) :
    (scanFile c full floor old f = none ∧ ∃ o, old = some o ∧ o.fingerprint = fingerprint f ∧
        Cached c floor db o f.2 f.2.bytes) ∨
      scanFile c full floor old f = some (readFrom c floor true 0 [] f) ∨
      ∃ o b more, old = some o ∧ Cached c floor db o f.2 b ∧ f.2.bytes = b ++ more ∧
        scanFile c full floor old f = some (readFrom c floor false o.offset o.entries f) := by
  cases old with
  | none => exact .inr (.inl rfl)
  | some o =>
    obtain ⟨b, hcached⟩ := hold o rfl
    rw [scanFile]
    split
    next hsame =>
      simp only [Bool.and_eq_true, decide_eq_true_eq] at hsame
      obtain ⟨more, hmore⟩ := hcached.appended (congrArg Fingerprint.ino hsame.2)
      have hlen : b.length = f.2.bytes.length := by
        rw [← hcached.read.len, hsame.2]
        rfl
      have hb : b = f.2.bytes := List.IsPrefix.eq_of_length ⟨more, hmore⟩ hlen
      exact .inl ⟨rfl, o, rfl, hsame.2, hb ▸ hcached⟩
    next =>
      split
      next => exact .inr (.inl rfl)
      next hre =>
        simp only [Bool.or_eq_true, not_or, Bool.not_eq_true] at hre
        have hino : o.fingerprint.ino = f.2.ino := by
          have hre := hre.2
          simp only [rewritten, Bool.or_eq_false_iff, Bool.not_eq_false', sameFile,
            decide_eq_true_eq] at hre
          exact hre.1.1.1
        obtain ⟨more, hmore⟩ := hcached.appended hino
        exact .inr (.inr ⟨o, b, more, rfl, hcached, hmore.symm, rfl⟩)

theorem readFrom_zero (floor : Int) (reset : Bool) (f : Text × LogFile) :
    let d := readFrom c floor reset 0 [] f
    d.offset = (joined lf (completeLines f.2.bytes)).length ∧
      d.scan.tombstones = tombstonesIn c f.2.bytes ∧
      ∀ k : Key, floor ≤ k.2 → contributions.lookup k d.scan.entries = said c f.2.bytes k := by
  simp only [readFrom, drop_zero, foldl_scanLine, nil_append, Nat.zero_add]
  refine ⟨(Lines.length_joined lf _).symm, rfl, fun k hk => ?_⟩
  rw [lookup_foldl, under_recent hk, said]
  split
  next h => rw [h]; rfl
  next =>
    cases contributions.summary (contributions.under k (entriesAt c 0 (completeLines f.2.bytes))) <;>
      rfl

theorem readFrom_offset {floor : Int} {o : FileState} {f : Text × LogFile} {b more : List UInt8}
    (hread : ReadUpTo c floor o b) (hf : f.2.bytes = b ++ more) :
    let d := readFrom c floor false o.offset o.entries f
    d.offset = (joined lf (completeLines f.2.bytes)).length ∧
      tombstonesIn c f.2.bytes = tombstonesIn c b ++ d.scan.tombstones ∧
      ∀ k : Key, floor ≤ k.2 →
        (contributions.lookup k d.scan.entries).or (said c b k) = said c f.2.bytes k := by
  let new := completeLines (torn lf b ++ more)
  have hnew : completeLines (f.2.bytes.drop o.offset) = new := by
    rw [hf, hread.offset]
    exact congrArg completeLines (drop_joined_complete b more)
  have hall : completeLines f.2.bytes = completeLines b ++ new :=
    (congrArg completeLines hf).trans (complete_append b more)
  simp only [readFrom, hnew, foldl_scanLine, nil_append]
  refine ⟨?_, ?_, fun k hk => ?_⟩
  · rw [hread.offset, hall, joined_append, length_append, ← Lines.length_joined lf new]
  · rw [tombstonesIn, hall, filterMap_append]
    rfl
  · have hsplit : said c f.2.bytes k = (said c b k).merge contributions.absorb
        (contributions.summary (contributions.under k (entriesAt c o.offset new))) := by
      rw [said, hall, entriesAt_append, under_append, ← Lines.length_joined lf, Nat.zero_add,
        summary_append, said, hread.offset]
    rw [lookup_foldl, under_recent hk, hsplit, hread.entries k hk]
    cases contributions.under k (entriesAt c o.offset new) with
    | nil => cases said c b k <;> rfl
    | cons e es =>
      rw [if_neg (cons_ne_nil _ _)]
      cases said c b k <;> rfl

theorem lookup_readFrom {floor : Int} {reset : Bool} {start : Nat} {before : List Contribution}
    {f : Text × LogFile} {k : Key}
    (hk : k ∉ (readFrom c floor reset start before f).scan.affected) :
    contributions.lookup k (readFrom c floor reset start before f).scan.entries = none := by
  simp only [readFrom, foldl_scanLine, nil_append] at hk ⊢
  rw [lookup_foldl, if_pos]
  · rfl
  · refine filter_eq_nil_iff.mpr fun e he hkey => hk (mem_map.mpr ⟨e, he, ?_⟩)
    exact of_decide_eq_true hkey

theorem lookup_eq_none {k : Key} {es : List Contribution} (h : k ∉ es.map (·.2.key)) :
    contributions.lookup k es = none := by
  refine find?_eq_none.mpr fun x hx => ?_
  have hne : contributions.key x ≠ k := fun he => h (mem_map.mpr ⟨x, hx, he⟩)
  simpa using hne

section File

variable {full : Bool} {floor : Int} {db : Index} {old : Option FileState} {f : Text × LogFile}

theorem next_scanFile (hold : ∀ o, old = some o → ∃ b, Cached c floor db o f.2 b) :
    ∃ o', FileState.next old (scanFile c full floor old f) = some o' ∧
      o'.fingerprint = fingerprint f ∧ ReadUpTo c floor o' f.2.bytes := by
  have hcases := @scanFile_cases _ full _ _ _ _ hold
  rcases hcases with ⟨hscan, o, rfl, hfp, hc⟩ | hscan | ⟨o, b, more, rfl, hc, hf, hscan⟩
  · rw [hscan]
    exact ⟨o, rfl, hfp, hc.read⟩
  · obtain ⟨hoff, -, hentries⟩ := readFrom_zero (c := c) floor true f
    rw [hscan]
    exact ⟨_, rfl, rfl, hoff, rfl, hentries⟩
  · obtain ⟨hoff, -, hentries⟩ := readFrom_offset hc.read hf
    rw [hscan]
    refine ⟨_, rfl, rfl, hoff, rfl, fun k hk => ?_⟩
    change contributions.lookup k (contributions.extend o.entries _) = _
    rw [lookup_extend, hc.read.entries k hk]
    exact hentries k hk

theorem path_scanFile {d : Delta} (hd : scanFile c full floor old f = some d) : d.path = f.1 := by
  cases old with
  | none => exact Option.some.inj hd ▸ rfl
  | some o =>
    rw [scanFile] at hd
    split at hd
    · nomatch hd
    · split at hd
      · exact Option.some.inj hd ▸ rfl
      · exact Option.some.inj hd ▸ rfl

theorem contribution_scanFile (hold : ∀ o, old = some o → ∃ b, Cached c floor db o f.2 b)
    {k : Key} (hk : floor ≤ k.2) :
    contribution old (scanFile c full floor old f) k = said c f.2.bytes k := by
  have hcases := @scanFile_cases _ full _ _ _ _ hold
  rcases hcases with ⟨hscan, o, rfl, hfp, hc⟩ | hscan | ⟨o, b, more, rfl, hc, hf, hscan⟩
  · rw [hscan]
    exact hc.read.entries k hk
  · obtain ⟨-, -, hentries⟩ := readFrom_zero (c := c) floor true f
    rw [hscan]
    change (contributions.lookup k _).or none = _
    rw [Option.or_none]
    exact hentries k hk
  · obtain ⟨-, -, hentries⟩ := readFrom_offset hc.read hf
    rw [hscan]
    change (contributions.lookup k _).or (contributions.lookup k o.entries) = _
    rw [hc.read.entries k hk]
    exact hentries k hk

theorem contribution_untouched {k : Key}
    (hnot : ∀ d, scanFile c full floor old f = some d → k ∉ touched old d) :
    contribution old (scanFile c full floor old f) k =
      old.bind fun o => contributions.lookup k o.entries := by
  cases old with
  | none =>
    have hk := hnot _ rfl
    rw [touched, mem_append, not_or] at hk
    change (contributions.lookup k _).or none = none
    rw [lookup_readFrom hk.1]
    rfl
  | some o =>
    rw [scanFile] at hnot ⊢
    split
    next => rfl
    next hdiff =>
      rw [if_neg hdiff] at hnot
      split
      next hre =>
        rw [if_pos hre] at hnot
        have hk := hnot _ rfl
        rw [touched, mem_append, not_or] at hk
        change (contributions.lookup k _).or none = contributions.lookup k o.entries
        rw [lookup_readFrom hk.1]
        exact (lookup_eq_none hk.2).symm
      next hre =>
        rw [if_neg hre] at hnot
        have hk := hnot _ rfl
        rw [touched, mem_append, not_or] at hk
        change (contributions.lookup k _).or (contributions.lookup k o.entries) = _
        rw [lookup_readFrom hk.1]
        rfl

theorem mem_tombstones_scanFile (hold : ∀ o, old = some o → ∃ b, Cached c floor db o f.2 b)
    {k : Key} (hk : k ∈ tombstonesIn c f.2.bytes) : k ∈ db.tombstones ∨
      ∃ d, scanFile c full floor old f = some d ∧ k ∈ d.scan.tombstones := by
  have hcases := @scanFile_cases _ full _ _ _ _ hold
  rcases hcases with ⟨-, o, rfl, -, hc⟩ | hscan | ⟨o, b, more, rfl, hc, hf, hscan⟩
  · exact .inl (hc.buried k hk)
  · refine .inr ⟨_, hscan, ?_⟩
    rw [(readFrom_zero floor true f).2.1]
    exact hk
  · rw [(readFrom_offset hc.read hf).2.1, mem_append] at hk
    exact hk.imp (hc.buried k) fun hk => ⟨_, hscan, hk⟩

theorem tombstones_of_scanFile (hold : ∀ o, old = some o → ∃ b, Cached c floor db o f.2 b)
    {d : Delta} (hd : scanFile c full floor old f = some d) {k : Key}
    (hk : k ∈ d.scan.tombstones) : k ∈ tombstonesIn c f.2.bytes := by
  have hcases := @scanFile_cases _ full _ _ _ _ hold
  rcases hcases with ⟨hscan, -⟩ | hscan | ⟨o, b, more, rfl, hc, hf, hscan⟩
  · rw [hscan] at hd
    nomatch hd
  · obtain rfl := Option.some.inj (hscan.symm.trans hd)
    rw [(readFrom_zero floor true f).2.1] at hk
    exact hk
  · obtain rfl := Option.some.inj (hscan.symm.trans hd)
    rw [(readFrom_offset hc.read hf).2.1]
    exact mem_append_right _ hk

end File

/-! ### All files -/

/-- All entries that are not too old, with their places. -/
def allEntries (c : LogCodec) (floor : Int) (files : List (Text × LogFile)) :
    List (Place × HistoryEntry) :=
  files.flatMap fun f => (recent floor (entriesAt c 0 (completeLines f.2.bytes))).map (place f.1)

theorem pairwise_allEntries {floor : Int} {files : List (Text × LogFile)}
    (hsorted : files.Pairwise fun a b => a.1 < b.1) :
    (allEntries c floor files).Pairwise fun a b => a.1 < b.1 := by
  rw [allEntries, pairwise_flatMap]
  constructor
  · intro f _
    rw [pairwise_map]
    refine ((pairwise_entriesAt 0 _).filter _).imp fun hlt => ?_
    exact Prod.Lex.toLex_lt_toLex.mpr (.inr ⟨rfl, hlt⟩)
  · refine hsorted.imp fun hlt x hx y hy => ?_
    obtain ⟨a, -, rfl⟩ := mem_map.mp hx
    obtain ⟨b, -, rfl⟩ := mem_map.mp hy
    exact Prod.Lex.toLex_lt_toLex.mpr (.inl hlt)

theorem filterMap_eq_of_sorted {α β : Type*} [LinearOrder α] {l l' : List α} {φ : α → Option β}
    (hl : l.Pairwise (· < ·)) (hl' : l'.Pairwise (· < ·))
    (hleft : ∀ x ∈ l, x ∉ l' → φ x = none) (hright : ∀ x ∈ l', x ∉ l → φ x = none) :
    l.filterMap φ = l'.filterMap φ := by
  have hfilter : ∀ m : List α, m.filterMap φ = (m.filter fun x => (φ x).isSome).filterMap φ := by
    intro m
    rw [filterMap_filter]
    refine filterMap_congr fun x _ => ?_
    cases φ x <;> rfl
  have hmem : ∀ x, x ∈ l.filter (fun x => (φ x).isSome) ↔ x ∈ l'.filter fun x => (φ x).isSome := by
    intro x
    rw [mem_filter, mem_filter]
    refine and_congr_left fun hsome => ⟨fun hx => ?_, fun hx => ?_⟩
    · by_contra hx'
      rw [hleft x hx hx'] at hsome
      nomatch hsome
    · by_contra hx'
      rw [hright x hx hx'] at hsome
      nomatch hsome
  have heq : l.filter (fun x => (φ x).isSome) = l'.filter fun x => (φ x).isSome := by
    have hnodup : ∀ {m : List α}, m.Pairwise (· < ·) → m.Nodup := fun h => h.imp ne_of_lt
    refine @List.Perm.eq_of_pairwise _ (· < ·) _ _ ?_ (hl.filter _) (hl'.filter _)
      ((perm_ext_iff_of_nodup ((hnodup hl).filter _) ((hnodup hl').filter _)).mpr hmem)
    exact fun a b _ _ hab hba => absurd (lt_trans hab hba) (lt_irrefl a)
  rw [hfilter l, hfilter l', heq]

/-- What the index has been told of a key in the last pass. -/
def toldOf (s : HistorySync) (k : Key) : Option (Place × HistoryEntry) :=
  (merging.located Place).summary
    (s.files.filterMap fun f => (contributions.lookup k f.2.entries).map (place f.1))

/-- The logs of a directory, with the identities that were seen under the names. -/
structure LogsOk (seen : List (Text × Nat)) (dir : LogDir) : Prop where
  nodup : (dir.map (·.1)).Nodup
  inos : ∀ f ∈ dir, (f.1, f.2.ino) ∈ seen

/-- What stays of the invariant when the tables are written to: the files are known. -/
structure Followed (c : LogCodec) (floor : Int) (seen : List (Text × Nat)) (dir : LogDir)
    (s : HistorySync) : Prop where
  valid : s.db.Valid
  sorted : s.files.Pairwise fun a b => a.1 < b.1
  cached : ∀ f ∈ s.files, (f.1, f.2.fingerprint.ino) ∈ seen ∧ ∃ b,
    ReadUpTo c floor f.2 b ∧ (∀ k ∈ tombstonesIn c b, k ∈ s.db.tombstones) ∧
      ∀ g ∈ dir, g.1 = f.1 → f.2.fingerprint.ino = g.2.ino → b <+: g.2.bytes

/-- **The invariant of an index between its passes.** -/
structure Synced (c : LogCodec) (floor : Int) (seen : List (Text × Nat)) (dir : LogDir)
    (s : HistorySync) : Prop extends Followed c floor seen dir s where
  paths : ∀ f ∈ s.files, f.2.fingerprint.path = f.1
  settled : ∀ k x, floor ≤ k.2 → toldOf s k = some x → merging.Settled s.db x.2
  fingerprints : s.fingerprints = s.files.map (·.2.fingerprint)

theorem sorted_logPaths {dir : LogDir} (h : (dir.map (·.1)).Nodup) :
    (logPaths dir).Pairwise fun a b => a.1 < b.1 := by
  have hperm : ((logPaths dir).map (·.1)).Nodup :=
    (((perm_insertionSort _ _).map _).nodup_iff).mpr ((filter_sublist.map _).nodup h)
  have hle : (logPaths dir).Pairwise fun a b => a.1 ≤ b.1 := pairwise_insertionSort _ _
  refine (hle.and (pairwise_map.mp hperm)).imp fun hab => ?_
  exact lt_of_le_of_ne hab.1 hab.2

theorem mem_logPaths {dir : LogDir} {f : Text × LogFile} (h : f ∈ logPaths dir) : f ∈ dir :=
  mem_of_mem_filter ((mem_insertionSort _).mp h)

/-! ### One pass -/

section Pass

variable {full : Bool} {floor : Int} {seen : List (Text × Nat)} {dir : LogDir} {s : HistorySync}

theorem HistorySync.mem_of_file {p : Text} {o : FileState} (h : s.file p = some o) :
    (p, o) ∈ s.files := by
  obtain ⟨f, hf, rfl⟩ := Option.map_eq_some_iff.mp h
  have hp : f.1 = p := by simpa using find?_some hf
  exact hp ▸ mem_of_find?_eq_some hf

theorem HistorySync.file_of_mem (hs : s.files.Pairwise fun a b => a.1 < b.1)
    {f : Text × FileState} (hf : f ∈ s.files) : s.file f.1 = some f.2 := by
  have hnodup : (s.files.map (·.1)).Nodup := pairwise_map.mpr (hs.imp ne_of_lt)
  rw [HistorySync.file]
  cases hfind : s.files.find? (fun g => g.1 = f.1) with
  | none =>
    have := find?_eq_none.mp hfind f hf
    simp at this
  | some g =>
    have hg : g.1 = f.1 := by simpa using find?_some hfind
    rw [inj_on_of_nodup_map hnodup (mem_of_find?_eq_some hfind) hf hg]
    rfl

theorem Followed.known (hs : Followed c floor seen dir s) {f : Text × LogFile}
    (hf : f ∈ logPaths dir) : ∀ o, s.file f.1 = some o → ∃ b, Cached c floor s.db o f.2 b := by
  intro o ho
  obtain ⟨-, b, hread, hburied, happ⟩ := hs.cached _ (HistorySync.mem_of_file ho)
  exact ⟨b, hread, hburied, happ f (mem_logPaths hf) rfl⟩

theorem under_map_place (k : Key) (p : Text) (es : List Contribution) :
    (merging.located Place).under k (es.map (place p)) =
      (contributions.under k es).map (place p) := by
  rw [under, filter_map]
  rfl

/-- **What is merged of a key is what all lines say of it.** -/
theorem mergedValue_eq (hs : Followed c floor seen dir s) {k : Key} (hk : floor ≤ k.2) :
    mergedValue c s full floor (logPaths dir) k = (merging.located Place).summary
      ((merging.located Place).under k (allEntries c floor (logPaths dir))) := by
  have hfile : ∀ f ∈ logPaths dir,
      (contribution (s.file f.1) (scanFile c full floor (s.file f.1) f) k).map (place f.1) =
        (merging.located Place).summary ((merging.located Place).under k
          ((recent floor (entriesAt c 0 (completeLines f.2.bytes))).map (place f.1))) := by
    intro f hf
    rw [contribution_scanFile (hs.known hf) hk, said, under_map_place, under_recent hk]
    exact (summary_map_place (fun n => toLex (f.1, n)) _).symm
  rw [mergedValue, filterMap_congr hfile, allEntries, under, filter_flatMap,
    summary_flatMap]
  rfl

theorem mergedValue_unaffected (hs : Synced c floor seen dir s) (hd : LogsOk seen dir)
    {k : Key} (hk : k ∉ affected c s full floor (logPaths dir)) :
    mergedValue c s full floor (logPaths dir) k = toldOf s k := by
  rw [affected, mem_append, not_or] at hk
  have hsorted := sorted_logPaths hd.nodup
  let φ : Text → Option (Place × HistoryEntry) := fun p =>
    ((s.file p).bind fun o => contributions.lookup k o.entries).map (place p)
  have hleft : (logPaths dir).filterMap (fun f =>
      (contribution (s.file f.1) (scanFile c full floor (s.file f.1) f) k).map (place f.1)) =
        ((logPaths dir).map (·.1)).filterMap φ := by
    rw [filterMap_map]
    refine filterMap_congr fun f hf => ?_
    rw [contribution_untouched]
    · rfl
    · intro d hd hmem
      refine hk.2 (mem_flatMap.mpr ⟨d, mem_filterMap.mpr ⟨f, hf, hd⟩, ?_⟩)
      rwa [path_scanFile hd]
  have hright : s.files.filterMap (fun f => (contributions.lookup k f.2.entries).map (place f.1)) =
      (s.files.map (·.1)).filterMap φ := by
    rw [filterMap_map]
    refine filterMap_congr fun f hf => ?_
    simp only [Function.comp_apply, φ, HistorySync.file_of_mem hs.sorted hf]
    rfl
  rw [mergedValue, toldOf, hleft, hright, filterMap_eq_of_sorted]
  · exact pairwise_map.mpr hsorted
  · exact pairwise_map.mpr hs.sorted
  · intro p _ hp
    simp only [φ]
    cases hfile : s.file p with
    | none => rfl
    | some o => exact absurd (mem_map_of_mem (HistorySync.mem_of_file hfile)) hp
  · intro p hp hnot
    obtain ⟨f, hf, rfl⟩ := mem_map.mp hp
    simp only [φ, HistorySync.file_of_mem hs.sorted hf]
    have hgone : k ∉ f.2.entries.map (·.2.key) := fun hmem => hk.1 (mem_flatMap.mpr
      ⟨f, mem_filter.mpr ⟨hf, by simpa using hnot⟩, hmem⟩)
    rw [Option.bind_some, lookup_eq_none hgone]
    rfl

/-! ### The reference -/

theorem replay_filter_buried {db : Index} (h : db.Valid) {es : List HistoryEntry}
    {p : HistoryEntry → Bool} (hp : ∀ e ∈ es, p e = false → e.key ∈ db.tombstones) :
    merging.replay db (es.filter p) = merging.replay db es := by
  induction es generalizing db with
  | nil => rfl
  | cons e es ih =>
    cases hpe : p e with
    | true =>
      rw [filter_cons_of_pos hpe]
      refine ih (h.replayEntry e) fun e' he' hpe' => ?_
      change e'.key ∈ (db.replayEntry e).tombstones
      rw [tombstones_replayEntry]
      exact hp e' (mem_cons_of_mem _ he') hpe'
    | false =>
      have hset := settled_of_buried h (hp e mem_cons_self hpe)
      rw [filter_cons_of_neg (by simp [hpe]),
        ih h fun e' he' => hp e' (mem_cons_of_mem _ he')]
      change _ = merging.replay (merging.apply db e) es
      rw [hset.1]

theorem map_snd_entriesAt (ls : List (List UInt8)) :
    (entriesAt c start ls).map Prod.snd =
      ls.filterMap fun l => if c.probe l then none else c.entry l := by
  induction ls generalizing start with
  | nil => rfl
  | cons l ls ih =>
    rw [entriesAt_cons, map_append, ih, filterMap_cons]
    by_cases hp : c.probe l
    · simp [hp]
    · cases he : c.entry l with
      | none => simp [hp]
      | some e => simp [hp]

theorem map_snd_allEntries (floor : Int) (files : List (Text × LogFile)) :
    (allEntries c floor files).map Prod.snd =
      ((files.flatMap fun f => completeLines f.2.bytes).filterMap fun l =>
        if c.probe l then none else c.entry l).filter fun e => floor ≤ e.completedAtUnix := by
  induction files with
  | nil => rfl
  | cons f files ih =>
    have hfile : ((recent floor (entriesAt c 0 (completeLines f.2.bytes))).map (place f.1)).map
        Prod.snd = ((completeLines f.2.bytes).filterMap fun l =>
          if c.probe l then none else c.entry l).filter fun e => floor ≤ e.completedAtUnix := by
      rw [← map_snd_entriesAt 0, filter_map, map_map]
      rfl
    rw [allEntries, flatMap_cons, map_append, ← allEntries, ih, hfile, flatMap_cons,
      filterMap_append, filter_append]

/-- All lines of the logs. -/
def allLines (files : List (Text × LogFile)) : List (List UInt8) :=
  files.flatMap fun f => completeLines f.2.bytes

/-- The index that takes all complete lines, the tombstones first. -/
def replayedLines (c : LogCodec) (db : Index) (files : List (Text × LogFile)) (floor : Int) : Index :=
  merging.replay (db.bury ((allLines files).filterMap (tombstoneOf c)))
    ((allEntries c floor files).map Prod.snd)

theorem splitLines_of_whole {bytes : List UInt8} (h : torn lf bytes = []) :
    splitLines bytes = completeLines bytes := by
  have hsplit : bytes.splitOn lf = completeLines bytes ++ [[]] := by
    rw [← h]
    exact (complete_append_torn lf bytes).symm
  rw [splitLines, hsplit, if_pos getLast?_concat, dropLast_concat]

/-- **The reference replays all entries**, if no line is torn. -/
theorem fullReplay_eq (hc : c.Coherent) {db : Index} (h : db.Valid)
    {files : List (Text × LogFile)} (hwhole : ∀ f ∈ files, torn lf f.2.bytes = []) :
    fullReplay c db files floor = replayedLines c db files floor := by
  have hlines : (files.flatMap fun f => splitLines f.2.bytes) = allLines files :=
    flatMap_congr fun f hf => splitLines_of_whole (hwhole f hf)
  have hv := foldl_replayTombstone h ((allLines files).filterMap (tombstoneOf c)) ▸
    h.foldl_replayTombstone _
  have hentries : (((allLines files).filterMap c.entry).filter fun e =>
      floor ≤ e.completedAtUnix && e.key ∉ (allLines files).filterMap (tombstoneOf c)) =
        ((allEntries c floor files).map Prod.snd).filter fun e =>
          e.key ∉ (allLines files).filterMap (tombstoneOf c) := by
    rw [map_snd_allEntries, filter_filter, ← allLines, filter_filterMap,
      filter_filterMap]
    refine filterMap_congr fun l hl => ?_
    cases he : c.entry l with
    | none => simp
    | some e =>
      by_cases hp : c.probe l
      · have hburied : e.key ∈ (allLines files).filterMap (tombstoneOf c) := by
          refine mem_filterMap.mpr ⟨l, hl, ?_⟩
          rw [tombstoneOf, if_pos hp]
          exact hc l e hp he
        generalize (allLines files).filterMap (tombstoneOf c) = buried at hburied
        simp [hp, hburied]
      · simp [hp, Bool.and_comm]
  rw [fullReplay, hlines, hentries, foldl_replayTombstone h]
  refine replay_filter_buried hv fun e _ hburied => ?_
  exact Finset.mem_union_right _ (mem_toFinset.mpr (by simpa using hburied))

theorem bury_readDeltas (hs : Followed c floor seen dir s) :
    s.db.bury ((readDeltas c s full floor (logPaths dir)).flatMap (·.scan.tombstones)) =
      s.db.bury ((allLines (logPaths dir)).filterMap (tombstoneOf c)) := by
  have hmem : ∀ k, k ∈ (allLines (logPaths dir)).filterMap (tombstoneOf c) ↔
      ∃ f ∈ logPaths dir, k ∈ tombstonesIn c f.2.bytes := by
    intro k
    rw [allLines, filterMap_flatMap, mem_flatMap]
    rfl
  refine (bury_congr hs.valid (fun k hk => ?_) fun k hk => ?_).symm
  · obtain ⟨d, hdelta, hkd⟩ := mem_flatMap.mp hk
    obtain ⟨f, hf, hscan⟩ := mem_filterMap.mp hdelta
    exact (hmem k).mpr ⟨f, hf, tombstones_of_scanFile (hs.known hf) hscan hkd⟩
  · obtain ⟨f, hf, hkt⟩ := (hmem k).mp hk
    refine (@mem_tombstones_scanFile _ full _ _ _ _ (hs.known hf) _ hkt).imp_right ?_
    rintro ⟨d, hscan, hkd⟩
    exact mem_flatMap.mpr ⟨d, mem_filterMap.mpr ⟨f, hf, hscan⟩, hkd⟩

theorem floor_le_of_merged {files : List (Text × LogFile)} {e : Place × HistoryEntry}
    (he : e ∈ (merging.located Place).merged (allEntries c floor files)) : floor ≤ e.2.key.2 := by
  obtain ⟨k, hk⟩ := mem_merged.mp he
  have hkey : e.2.key = k := key_summary hk
  cases hunder : (merging.located Place).under k (allEntries c floor files) with
  | nil =>
    rw [hunder] at hk
    nomatch hk
  | cons x xs =>
    obtain ⟨hx, hxk⟩ := mem_under.mp (hunder ▸ mem_cons_self : x ∈ _)
    obtain ⟨f, -, hxf⟩ := mem_flatMap.mp hx
    obtain ⟨y, hy, rfl⟩ := mem_map.mp hxf
    have hold := of_decide_eq_true (mem_filter.mp hy).2
    rw [hkey, ← hxk]
    exact hold

theorem settled_of_unaffected (hs : Synced c floor seen dir s) (hd : LogsOk seen dir)
    {e : Place × HistoryEntry}
    (he : e ∈ (merging.located Place).merged (allEntries c floor (logPaths dir)))
    (hnot : e.2.key ∉ affected c s full floor (logPaths dir)) : merging.Settled s.db e.2 := by
  have hfloor := floor_le_of_merged he
  obtain ⟨k, hk⟩ := mem_merged.mp he
  obtain rfl : e.2.key = k := key_summary hk
  refine hs.settled e.2.key e hfloor ?_
  rw [← mergedValue_unaffected hs hd hnot, mergedValue_eq hs.toFollowed hfloor, hk]

/-- A pass brings the index where a replay of all complete lines would bring it, if what
it leaves out is settled. -/
theorem Followed.reconcile_db (hs : Followed c floor seen dir s) (hd : LogsOk seen dir)
    (hsettled : ∀ e ∈ (merging.located Place).merged (allEntries c floor (logPaths dir)),
      e.2.key ∉ affected c s full floor (logPaths dir) → merging.Settled s.db e.2) :
    (reconcile c s full (logPaths dir) floor).db =
      replayedLines c s.db (logPaths dir) floor := by
  let tombstones := (readDeltas c s full floor (logPaths dir)).flatMap (·.scan.tombstones)
  let keys := (affected c s full floor (logPaths dir)).filter fun k => floor ≤ k.2 && k ∉ tombstones
  have hpick : (keys.dedup.filterMap (mergedValue c s full floor (logPaths dir))).insertionSort
      (fun a b => a.1 ≤ b.1) = merging.pick keys (allEntries c floor (logPaths dir)) := by
    rw [pick, filterMap_congr fun k hk => ?_]
    have hk := (mem_filter.mp (mem_dedup.mp hk)).2
    rw [Bool.and_eq_true, decide_eq_true_eq] at hk
    exact mergedValue_eq hs hk.1
  have hv : (s.db.bury tombstones).Valid :=
    foldl_replayTombstone hs.valid tombstones ▸ hs.valid.foldl_replayTombstone tombstones
  calc (reconcile c s full (logPaths dir) floor).db
      = merging.replay (tombstones.foldl replayTombstone s.db)
          ((merging.pick keys (allEntries c floor (logPaths dir))).map Prod.snd) := by
        rw [← hpick]
        rfl
    _ = (merging.located Place).replay (s.db.bury tombstones)
          (((merging.located Place).merged (allEntries c floor (logPaths dir))).filter
            fun e => e.2.key ∈ keys) := by
        rw [foldl_replayTombstone hs.valid, ← located_replay,
          pick_eq keys (pairwise_allEntries (sorted_logPaths hd.nodup))]
        exact congrArg _ (filter_congr fun e _ => decide_eq_decide.mpr Iff.rfl)
    _ = (merging.located Place).replay (s.db.bury tombstones)
          ((merging.located Place).merged (allEntries c floor (logPaths dir))) := by
        refine replay_filter (nodup_merged _) fun e he hnot => ?_
        by_cases hburied : e.2.key ∈ tombstones
        · exact settled_of_buried hv (Finset.mem_union_right _ (mem_toFinset.mpr hburied))
        · have hout : e.2.key ∉ affected c s full floor (logPaths dir) := by
            intro hmem
            refine of_decide_eq_false hnot (mem_filter.mpr ⟨hmem, ?_⟩)
            simp [floor_le_of_merged he, hburied]
          exact settled_bury hs.valid (hsettled e he hout) tombstones
    _ = replayedLines c s.db (logPaths dir) floor := by
        rw [replay_merged, located_replay, replayedLines, ← bury_readDeltas hs]

/-- **A pass brings the index where a replay of all complete lines would bring it.** -/
theorem reconcile_db (hs : Synced c floor seen dir s) (hd : LogsOk seen dir) :
    (reconcile c s full (logPaths dir) floor).db =
      replayedLines c s.db (logPaths dir) floor :=
  hs.toFollowed.reconcile_db hd fun _ he hnot => settled_of_unaffected hs hd he hnot

theorem mem_affected_full {e : Place × HistoryEntry}
    (he : e ∈ (merging.located Place).merged (allEntries c floor (logPaths dir))) :
    e.2.key ∈ affected c s true floor (logPaths dir) := by
  obtain ⟨k, hk⟩ := mem_merged.mp he
  obtain rfl : e.2.key = k := key_summary hk
  cases hunder : (merging.located Place).under e.2.key (allEntries c floor (logPaths dir)) with
  | nil =>
    rw [hunder] at hk
    nomatch hk
  | cons x xs =>
    obtain ⟨hx, hxk⟩ := mem_under.mp (hunder ▸ mem_cons_self : x ∈ _)
    obtain ⟨f, hf, hxf⟩ := mem_flatMap.mp hx
    obtain ⟨y, hy, rfl⟩ := mem_map.mp hxf
    have hscan : scanFile c true floor (s.file f.1) f = some (readFrom c floor true 0 [] f) := by
      cases s.file f.1 <;> rfl
    refine mem_append_right _ (mem_flatMap.mpr
      ⟨_, mem_filterMap.mpr ⟨f, hf, hscan⟩, mem_append_left _ ?_⟩)
    simp only [readFrom, drop_zero, foldl_scanLine, nil_append]
    exact mem_map.mpr ⟨y, hy, hxk⟩

theorem Followed.reconcile_full (hs : Followed c floor seen dir s) (hd : LogsOk seen dir) :
    (reconcile c s true (logPaths dir) floor).db =
      replayedLines c s.db (logPaths dir) floor :=
  hs.reconcile_db hd fun _ he hnot => absurd (mem_affected_full he) hnot

/-! ### The invariant is kept -/

theorem tombstones_replay (db : Index) (es : List HistoryEntry) :
    (merging.replay db es).tombstones = db.tombstones := by
  induction es generalizing db with
  | nil => rfl
  | cons e es ih => exact (ih _).trans (tombstones_replayEntry db e)

theorem toldOf_reconcile (hs : Followed c floor seen dir s) {k : Key} (hk : floor ≤ k.2) :
    toldOf (reconcile c s full (logPaths dir) floor) k =
      mergedValue c s full floor (logPaths dir) k := by
  rw [toldOf, mergedValue, reconcile, filterMap_filterMap]
  refine congrArg _ (filterMap_congr fun f hf => ?_)
  obtain ⟨o', hnext, -, hread⟩ := @next_scanFile _ full _ _ _ _ (hs.known hf)
  rw [contribution_scanFile (hs.known hf) hk, hnext, Option.map_some, Option.bind_some,
    hread.entries k hk]

theorem Valid.replayedLines {db : Index} (h : db.Valid) (files : List (Text × LogFile)) :
    (replayedLines c db files floor).Valid :=
  Valid.foldl_replayEntry (foldl_replayTombstone h _ ▸ h.foldl_replayTombstone _) _

theorem tombstones_replayedLines (db : Index) (files : List (Text × LogFile)) :
    (replayedLines c db files floor).tombstones =
      db.tombstones ∪ ((allLines files).filterMap (tombstoneOf c)).toFinset :=
  tombstones_replay _ _

theorem files_reconcile (hs : Followed c floor seen dir s) {g : Text × FileState}
    (hg : g ∈ (reconcile c s full (logPaths dir) floor).files) :
    ∃ f ∈ logPaths dir, g.1 = f.1 ∧ g.2.fingerprint = fingerprint f ∧
      ReadUpTo c floor g.2 f.2.bytes := by
  obtain ⟨f, hf, hfg⟩ := mem_filterMap.mp hg
  obtain ⟨o', hnext, hfp, hread⟩ := @next_scanFile _ full _ _ _ _ (hs.known hf)
  rw [hnext] at hfg
  obtain rfl := Option.some.inj hfg
  exact ⟨f, hf, rfl, hfp, hread⟩

theorem tombstones_reconcile (hs : Followed c floor seen dir s) :
    (reconcile c s full (logPaths dir) floor).db.tombstones =
      s.db.tombstones ∪ ((allLines (logPaths dir)).filterMap (tombstoneOf c)).toFinset := by
  have hbury := congrArg tombstones (@bury_readDeltas _ full _ _ _ _ hs)
  rw [reconcile]
  dsimp only
  rw [foldl_replayTombstone hs.valid]
  exact (tombstones_replay _ _).trans hbury

theorem Followed.reconcile (hs : Followed c floor seen dir s) (hd : LogsOk seen dir) :
    Followed c floor seen dir (reconcile c s full (logPaths dir) floor) := by
  constructor
  · exact Valid.foldl_replayEntry (hs.valid.foldl_replayTombstone _) _
  · refine List.Pairwise.filterMap _ (fun a b hab x hx y hy => ?_) (sorted_logPaths hd.nodup)
    obtain ⟨o, -, rfl⟩ := Option.map_eq_some_iff.mp hx
    obtain ⟨o', -, rfl⟩ := Option.map_eq_some_iff.mp hy
    exact hab
  · intro g hg
    obtain ⟨f, hf, hpath, hfp, hread⟩ := files_reconcile hs hg
    refine ⟨?_, f.2.bytes, hread, fun k hk => ?_, fun f' hf' hpath' _ => ?_⟩
    · rw [hpath, hfp]
      exact hd.inos f (mem_logPaths hf)
    · rw [tombstones_reconcile hs]
      refine Finset.mem_union_right _ (mem_toFinset.mpr ?_)
      rw [allLines, filterMap_flatMap]
      exact mem_flatMap.mpr ⟨f, hf, hk⟩
    · rw [inj_on_of_nodup_map hd.nodup hf' (mem_logPaths hf) (hpath'.trans hpath)]

/-- **A pass keeps the invariant.** -/
theorem Synced.reconcile (hs : Synced c floor seen dir s) (hd : LogsOk seen dir) :
    Synced c floor seen dir (reconcile c s full (logPaths dir) floor) := by
  refine ⟨@Followed.reconcile _ full _ _ _ _ hs.toFollowed hd, ?_, ?_, ?_⟩
  · intro g hg
    obtain ⟨f, -, hpath, hfp, -⟩ := files_reconcile hs.toFollowed hg
    rw [hfp, hpath]
    rfl
  · intro k x hk hx
    rw [toldOf_reconcile hs.toFollowed hk, mergedValue_eq hs.toFollowed hk] at hx
    rw [reconcile_db hs hd, replayedLines, ← located_replay, ← replay_merged]
    exact settled_replay (nodup_merged _) (mem_merged.mpr ⟨k, hx⟩)
  · refine ((map_filterMap ..).trans ?_).symm
    refine (filterMap_congr fun f hf => ?_).trans (congrFun filterMap_eq_map _)
    obtain ⟨o', hnext, hfp, -⟩ := @next_scanFile _ full _ _ _ _ (hs.toFollowed.known hf)
    rw [hnext, Option.map_some, Option.map_some, Function.comp_apply, hfp]

end Pass

def HistorySync.opened (db : Index) : HistorySync := ⟨db, [], false, [], false⟩

/-! ### Changes of the logs -/

inductive LogChange
  | append (path : Text) (more : List UInt8) (modified : Nat)
  | put (path : Text) (ino modified : Nat) (bytes : List UInt8)
  | remove (path : Text)

namespace LogChange

def apply (dir : LogDir) : LogChange → LogDir
  | append p more m => dir.map fun f =>
      if f.1 = p then (f.1, { f.2 with bytes := f.2.bytes ++ more, modified := m }) else f
  | put p ino m bytes => dir.filter (·.1 ≠ p) ++ [(p, ⟨ino, m, bytes⟩)]
  | remove p => dir.filter (·.1 ≠ p)

/-- The identities that were seen under the names. -/
def seen (seen : List (Text × Nat)) : LogChange → List (Text × Nat)
  | append _ _ _ => seen
  | put p ino _ _ => (p, ino) :: seen
  | remove _ => seen

/-- A new file has a new identity. -/
def Enabled (seen : List (Text × Nat)) : LogChange → Prop
  | append _ _ _ => True
  | put p ino _ _ => (p, ino) ∉ seen
  | remove _ => True

/-- What is written is complete lines. -/
def Whole : LogChange → Prop
  | append _ more _ => torn lf more = []
  | put _ _ _ bytes => torn lf bytes = []
  | remove _ => True

end LogChange

section Change

variable {seen : List (Text × Nat)} {dir : LogDir} {ch : LogChange}

theorem mem_apply {f : Text × LogFile} (hf : f ∈ ch.apply dir) (he : ch.Enabled seen) :
    (∃ g ∈ dir, g.1 = f.1 ∧ g.2.ino = f.2.ino ∧ g.2.bytes <+: f.2.bytes) ∨
      (f.1, f.2.ino) ∉ seen ∧ (f.1, f.2.ino) ∈ ch.seen seen := by
  cases ch with
  | append p more m =>
    obtain ⟨g, hg, rfl⟩ := mem_map.mp hf
    refine .inl ⟨g, hg, ?_⟩
    split
    · exact ⟨rfl, rfl, prefix_append _ _⟩
    · exact ⟨rfl, rfl, prefix_rfl⟩
  | put p ino m bytes =>
    rcases mem_append.mp hf with hf | hf
    · exact .inl ⟨f, mem_of_mem_filter hf, rfl, rfl, prefix_rfl⟩
    · obtain rfl := mem_singleton.mp hf
      exact .inr ⟨he, mem_cons_self⟩
  | remove p => exact .inl ⟨f, mem_of_mem_filter hf, rfl, rfl, prefix_rfl⟩

theorem mem_seen {x : Text × Nat} (h : x ∈ seen) : x ∈ ch.seen seen := by
  cases ch with
  | append => exact h
  | put => exact mem_cons_of_mem _ h
  | remove => exact h

theorem LogsOk.change (h : LogsOk seen dir) (he : ch.Enabled seen) :
    LogsOk (ch.seen seen) (ch.apply dir) := by
  constructor
  · cases ch with
    | append p more m =>
      have hnames : (LogChange.apply dir (.append p more m)).map (·.1) = dir.map (·.1) := by
        rw [LogChange.apply, map_map]
        refine map_congr_left fun f _ => ?_
        simp only [Function.comp_apply]
        split <;> rfl
      exact hnames ▸ h.nodup
    | put p ino m bytes =>
      rw [LogChange.apply, map_append]
      refine nodup_append.mpr
        ⟨(filter_sublist.map _).nodup h.nodup, nodup_singleton _, ?_⟩
      rintro x hx y hy rfl
      obtain ⟨f, hf, rfl⟩ := mem_map.mp hx
      have hne := of_decide_eq_true (mem_filter.mp hf).2
      exact hne (mem_singleton.mp hy)
    | remove p => exact (filter_sublist.map _).nodup h.nodup
  · intro f hf
    rcases mem_apply hf he with ⟨g, hg, hpath, hino, -⟩ | ⟨-, hseen⟩
    · rw [← hpath, ← hino]
      exact mem_seen (h.inos g hg)
    · exact hseen

theorem whole_change (h : ∀ f ∈ dir, torn lf f.2.bytes = []) (hw : ch.Whole) :
    ∀ f ∈ ch.apply dir, torn lf f.2.bytes = [] := by
  intro f hf
  cases ch with
  | append p more m =>
    obtain ⟨g, hg, rfl⟩ := mem_map.mp hf
    split
    · have hbytes := joined_complete_append_torn (s := lf) g.2.bytes
      rw [h g hg, append_nil] at hbytes
      dsimp only
      rw [← hbytes, torn_joined_append fun l hl => not_mem_complete hl]
      exact hw
    · exact h g hg
  | put p ino m bytes =>
    rcases mem_append.mp hf with hf | hf
    · exact h f (mem_of_mem_filter hf)
    · obtain rfl := mem_singleton.mp hf
      exact hw
  | remove p => exact h f (mem_of_mem_filter hf)

variable {c : LogCodec} {floor : Int} {s : HistorySync}

theorem Followed.change (h : Followed c floor seen dir s) (he : ch.Enabled seen) :
    Followed c floor (ch.seen seen) (ch.apply dir) s where
  valid := h.valid
  sorted := h.sorted
  cached := by
    intro f hf
    obtain ⟨hseen, b, hread, hburied, happ⟩ := h.cached f hf
    refine ⟨mem_seen hseen, b, hread, hburied, fun g hg hpath hino => ?_⟩
    rcases mem_apply hg he with ⟨g', hg', hpath', hino', hprefix⟩ | ⟨hnew, -⟩
    · exact (happ g' hg' (hpath'.trans hpath) (hino.trans hino'.symm)).trans hprefix
    · rw [hpath, ← hino] at hnew
      exact absurd hseen hnew

/-- **A change of the logs keeps the invariant.** -/
theorem Synced.change (h : Synced c floor seen dir s) (he : ch.Enabled seen) :
    Synced c floor (ch.seen seen) (ch.apply dir) s :=
  { h.toFollowed.change he with
    paths := h.paths
    settled := h.settled
    fingerprints := h.fingerprints }

theorem Followed.mono (h : Followed c floor seen dir s) {floor' : Int} (hle : floor ≤ floor') :
    Followed c floor' seen dir s where
  valid := h.valid
  sorted := h.sorted
  cached f hf := by
    obtain ⟨hseen, b, hread, hrest⟩ := h.cached f hf
    exact ⟨hseen, b, hread.mono hle, hrest⟩

theorem Synced.mono (h : Synced c floor seen dir s) {floor' : Int} (hle : floor ≤ floor') :
    Synced c floor' seen dir s :=
  { h.toFollowed.mono hle with
    paths := h.paths
    settled := fun k x hk => h.settled k x (hle.trans hk)
    fingerprints := h.fingerprints }

theorem Followed.write (h : Followed c floor seen dir s) {db : Index} (hv : db.Valid)
    (htombs : s.db.tombstones ⊆ db.tombstones) : Followed c floor seen dir { s with db := db } where
  valid := hv
  sorted := h.sorted
  cached f hf := by
    obtain ⟨hseen, b, hread, hburied, happ⟩ := h.cached f hf
    exact ⟨hseen, b, hread, fun k hk => htombs (hburied k hk), happ⟩

theorem synced_opened {db : Index} (h : db.Valid) : Synced c floor seen dir (.opened db) where
  valid := h
  sorted := .nil
  cached _ hf := absurd hf not_mem_nil
  paths _ hf := absurd hf not_mem_nil
  settled _ _ _ hx := nomatch hx
  fingerprints := rfl

end Change

end Nzbd.History
