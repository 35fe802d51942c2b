import Nzbd.Lib.Checked
import Nzbd.Lib.Utf8
import Nzbd.Yenc.Combine

/-!
# Quick verification

The checksums of the slices of a file, as the par2 set has them, are combined to that of the file
with zeros behind it up to a whole slice.  The checksum from the download is shifted through the
same zeros, and the two are compared: nothing is read from disk but the length of the file.

`sliceCrcs` is what par2 says of a content.  As no shift loses anything, the comparison is that of
the contents (`quickCheckFile_sliceCrcs`).  `none` stands for a number that does not fit into its
64 bits: a file whose last slice ends behind 2 ^ 64, longer than any file system reports.
-/

namespace Nzbd.QuickVerify

open List Checked Crc32 Yenc

abbrev Bytes := List UInt8

structure Par2File where
  name : List Char
  length : Nat
  sliceCrcs : List (BitVec 32)

structure Par2Set where
  sliceSize : Nat
  files : List Par2File
  recoveryBlocks : Nat

abbrev PathBuf := List Bytes

structure DownloadEvidence where
  path : PathBuf
  /-- Of the whole file, if nothing is missing. -/
  crc32 : Option (BitVec 32)

inductive VerifyResult
  | intact
  | repairable (blocksAvailable blocksNeeded : Nat)
  | needMoreBlocks (blocksNeeded : Nat)
  | unrepairable

/-! ### One file -/

/-- Zeros are fed in pieces of 8192 bytes. -/
def zeroLoop : Nat → Nat → Hasher → Hasher
  | 0, _, h => h
  | fuel + 1, left, h =>
    if left = 0 then h
    else zeroLoop fuel (left - min left 8192) (h.update (List.replicate (min left 8192) 0))

def zeroCrc (len : Nat) : BitVec 32 := (zeroLoop len len Hasher.new).finalize

def divCeil (a b : Nat) : Nat := if a % b = 0 then a / b else a / b + 1

/-- The checksums of the slices, one after the other. -/
def fold (sliceSize : Nat) (crcs : List (BitVec 32)) : Option (BitVec 32) :=
  crcs.foldl (fun expected crc => some (match expected with
    | none => crc
    | some prev => crc32CombineTables prev crc sliceSize)) none

def quickCheckFile (f : Par2File) (sliceSize diskLen : Nat) (wholeCrc : BitVec 32) : Option Bool :=
  if diskLen ≠ f.length ∨ f.sliceCrcs = [] ∨ sliceSize = 0 then some false
  else
    let nSlices := divCeil f.length sliceSize
    if f.sliceCrcs.length ≠ nSlices then some false
    else
      (mul 64 nSlices sliceSize).bind fun whole => (sub whole f.length).map fun pad =>
        let actual := if 0 < pad then crc32CombineTables wholeCrc (zeroCrc pad) pad else wholeCrc
        fold sliceSize f.sliceCrcs = some actual

/-! ### A set -/

/-- The last part of a path, unless it leads up. -/
def fileName (p : PathBuf) : Option Bytes := p.getLast?.filter (· ≠ [0x2e, 0x2e])

def evidenceFor (evidence : List DownloadEvidence) (f : Par2File) : Option DownloadEvidence :=
  evidence.find? fun e => (fileName e.path).any fun n => Utf8.fromUtf8Lossy n = f.name

section Set

-- The length the file system reports, if it reports one.
variable (metadata : PathBuf → Option Nat)

def check (set : Par2Set) (evidence : List DownloadEvidence) (f : Par2File) : Option Bool :=
  match evidenceFor evidence f with
  | none => some false
  | some e =>
    match e.crc32 with
    | none => some false
    | some crc => quickCheckFile f set.sliceSize ((metadata e.path).getD 0) crc

/-- A file that is not counts one, in 32 bits. -/
def quickVerify (set : Par2Set) (evidence : List DownloadEvidence) : Option VerifyResult :=
  (set.files.mapM (check metadata set evidence)).bind fun oks =>
    (sumFrom 32 0 (oks.map fun ok => if ok then 0 else 1)).map fun damaged =>
      if damaged = 0 then .intact else .repairable set.recoveryBlocks 0

end Set

/-! ### What par2 says of a content -/

/-- The bytes from `k` on, with zeros behind the end. -/
def sliceAt (s : Nat) (bs : Bytes) (k : Nat) : Bytes := (bs.drop k ++ List.replicate s 0).take s

def sliceCrcs (s : Nat) (bs : Bytes) : List (BitVec 32) :=
  (List.range (divCeil bs.length s)).map fun i => crc32 (sliceAt s bs (i * s))

def par2File (name : List Char) (s : Nat) (bs : Bytes) : Par2File := ⟨name, bs.length, sliceCrcs s bs⟩

variable {s n : Nat} {bs : Bytes}

theorem length_sliceAt (s : Nat) (bs : Bytes) (k : Nat) : (sliceAt s bs k).length = s := by
  simp [sliceAt]

theorem divCeil_mul (hs : 0 < s) (len : Nat) :
    len ≤ divCeil len s * s ∧ divCeil len s * s < len + s := by
  have hdiv := Nat.div_add_mod len s
  have hmod := Nat.mod_lt len hs
  unfold divCeil
  split
  · rw [Nat.mul_comm]
    omega
  · rw [Nat.add_mul, Nat.mul_comm, Nat.one_mul]
    omega

theorem sliceAt_eq {k m : Nat} (hk : k ≤ bs.length) (hm : s ≤ bs.length - k + m) :
    sliceAt s bs k = ((bs ++ List.replicate m 0).drop k).take s := by
  rw [sliceAt, drop_append_of_le_length hk, take_append, take_append,
    take_replicate, take_replicate, length_drop]
  congr 2
  omega

/-- **The slices, laid end to end.** -/
theorem flatten_slices (s n : Nat) (cs : Bytes) :
    ((List.range n).map fun i => (cs.drop (i * s)).take s).flatten = cs.take (n * s) := by
  induction n with
  | zero => simp
  | succ n ih =>
    rw [range_succ, map_append, flatten_append, ih, Nat.add_mul, Nat.one_mul,
      take_add]
    simp

theorem slices_eq (hs : 0 < s) (bs : Bytes) :
    ((List.range (divCeil bs.length s)).map fun i => sliceAt s bs (i * s)).flatten =
      bs ++ List.replicate (divCeil bs.length s * s - bs.length) 0 := by
  obtain ⟨hle, hlt⟩ := divCeil_mul hs bs.length
  have hslices : (range (divCeil bs.length s)).map (fun i => sliceAt s bs (i * s)) =
      (range (divCeil bs.length s)).map fun i =>
        ((bs ++ replicate (divCeil bs.length s * s - bs.length) 0).drop (i * s)).take s := by
    refine map_congr_left fun i hi => ?_
    have hi : i + 1 ≤ divCeil bs.length s := mem_range.mp hi
    have hend : (i + 1) * s ≤ divCeil bs.length s * s := Nat.mul_le_mul_right s hi
    rw [Nat.add_mul, Nat.one_mul] at hend
    exact sliceAt_eq (by omega) (by omega)
  rw [hslices, flatten_slices, take_of_length_le]
  rw [length_append, length_replicate]
  omega

/-! ### Checksums -/

theorem zeroLoop_eq (fuel left : Nat) (h : Hasher) (hfuel : left ≤ fuel) :
    zeroLoop fuel left h = h.update (List.replicate left 0) := by
  induction fuel generalizing left h with
  | zero =>
    obtain rfl : left = 0 := by omega
    rfl
  | succ fuel ih =>
    unfold zeroLoop
    split
    · next hzero => rw [hzero, replicate_zero]; rfl
    · rw [ih _ _ (by omega), ← Hasher.update_append, ← replicate_add]
      congr 2
      omega

theorem zeroCrc_eq (len : Nat) : zeroCrc len = crc32 (List.replicate len 0) := by
  rw [zeroCrc, zeroLoop_eq len len _ le_rfl]
  rfl

/-- **Slices of one size are combined to the checksum of all of them.** -/
theorem fold_eq (hs : s < 2 ^ 64) {slices : List Bytes} (h : ∀ x ∈ slices, x.length = s)
    (hne : slices ≠ []) : fold s (slices.map crc32) = some (crc32 slices.flatten) := by
  have hmore : ∀ (l : List Bytes) (acc : Bytes), (∀ x ∈ l, x.length = s) →
      (l.map crc32).foldl (fun expected crc => some (match expected with
        | none => crc
        | some prev => crc32CombineTables prev crc s)) (some (crc32 acc)) =
          some (crc32 (acc ++ l.flatten)) := by
    intro l
    induction l with
    | nil => intro acc _; simp
    | cons x l ih =>
      intro acc hl
      obtain ⟨hx, hl⟩ := forall_mem_cons.mp hl
      have hstep := combine_concatenates acc x (by omega)
      rw [hx] at hstep
      rw [map_cons, foldl_cons, flatten_cons, ← append_assoc, ← ih _ hl, ← hstep]
  cases slices with
  | nil => exact absurd rfl hne
  | cons x l => exact hmore l x (forall_mem_cons.mp h).2

theorem combineTables_eq (crc1 crc2 : BitVec 32) {len2 : Nat} (hpos : 0 < len2)
    (hlen : len2 < 2 ^ 64) :
    crc32CombineTables crc1 crc2 len2 = shiftBytes len2 crc1 ^^^ crc2 := by
  rw [crc32CombineTables_eq, crc32Combine_eq _ _ hpos hlen]

/-- **The same zeros behind both can be left out.** -/
theorem padded_eq_iff {pad : Nat} (hpad : pad < 2 ^ 64) (bs : Bytes) (crc : BitVec 32) :
    crc32 (bs ++ List.replicate pad 0) =
        (if 0 < pad then crc32CombineTables crc (zeroCrc pad) pad else crc) ↔
      crc = crc32 bs := by
  split
  · next hpos =>
    rw [combineTables_eq _ _ hpos hpad, zeroCrc_eq, crc32_append, length_replicate,
      BitVec.xor_left_inj, (shiftBytes_injective pad).eq_iff]
    exact eq_comm
  · next hzero =>
    obtain rfl : pad = 0 := by omega
    rw [replicate_zero, append_nil]
    exact eq_comm

/-! ### The check of one file -/

theorem quickCheckFile_isSome {f : Par2File} {diskLen : Nat} (crc : BitVec 32)
    (h : diskLen = f.length → divCeil f.length s * s < 2 ^ 64) :
    (quickCheckFile f s diskLen crc).isSome := by
  unfold quickCheckFile
  split
  · rfl
  · next hguard =>
    simp only []
    split
    · rfl
    · rw [not_or, not_or, not_not] at hguard
      have hle := (divCeil_mul (Nat.pos_of_ne_zero hguard.2.2) f.length).1
      rw [mul_of_lt (h hguard.1), Option.bind_some, sub_of_le hle]
      rfl

/-- **The check of a file is that of its length and its checksum.** -/
theorem quickCheckFile_sliceCrcs {name : List Char} {diskLen : Nat} (hbs : 1 ≤ bs.length)
    (hs : 1 ≤ s) (hfits : divCeil bs.length s * s < 2 ^ 64) (crc : BitVec 32) :
    quickCheckFile (par2File name s bs) s diskLen crc =
      some (decide (diskLen = bs.length ∧ crc = crc32 bs)) := by
  obtain ⟨hle, hlt⟩ := divCeil_mul hs bs.length
  have hcount : 0 < divCeil bs.length s := by
    refine Nat.pos_of_ne_zero fun hzero => ?_
    rw [hzero, Nat.zero_mul] at hle
    omega
  have hs64 : s < 2 ^ 64 := by
    have hone : 1 * s ≤ divCeil bs.length s * s := Nat.mul_le_mul_right s hcount
    omega
  have hlength : (sliceCrcs s bs).length = divCeil bs.length s := by
    rw [sliceCrcs, length_map, length_range]
  have hfold : fold s (sliceCrcs s bs) =
      some (crc32 (bs ++ replicate (divCeil bs.length s * s - bs.length) 0)) := by
    have hslices : ∀ x ∈ (range (divCeil bs.length s)).map fun i => sliceAt s bs (i * s),
        x.length = s := by
      intro x hx
      obtain ⟨i, -, rfl⟩ := mem_map.mp hx
      exact length_sliceAt s bs _
    have hcombined := fold_eq hs64 hslices (by simpa using hcount.ne')
    rw [map_map, slices_eq hs] at hcombined
    exact hcombined
  unfold quickCheckFile par2File
  simp only []
  by_cases hdisk : diskLen = bs.length
  · have hguard : ¬(diskLen ≠ bs.length ∨ sliceCrcs s bs = [] ∨ s = 0) := by
      have hne : sliceCrcs s bs ≠ [] := ne_nil_of_length_pos (by omega)
      simp [hdisk, hne]
      omega
    rw [if_neg hguard, if_neg (not_not_intro hlength), mul_of_lt hfits, Option.bind_some,
      sub_of_le hle, Option.map_some, hfold, Option.some.injEq]
    refine decide_eq_decide.mpr ?_
    rw [Option.some.injEq, padded_eq_iff (by omega), and_iff_right hdisk]
  · rw [if_pos (.inl hdisk)]
    simp [hdisk]

/-! ### The check of a set -/

section Verify

variable {metadata : PathBuf → Option Nat} {set : Par2Set} {evidence : List DownloadEvidence}

theorem mapM_check {α : Type*} {g : α → Option Bool} (l : List α) (h : ∀ x ∈ l, (g x).isSome) :
    ∃ oks : List Bool, l.mapM g = some oks ∧
      (oks.map fun ok => if ok then 0 else 1).sum ≤ l.length ∧
      ((oks.map fun ok => if ok then 0 else 1).sum = 0 ↔ ∀ x ∈ l, g x = some true) := by
  induction l with
  | nil => exact ⟨[], by simp, by simp, by simp⟩
  | cons x l ih =>
    obtain ⟨hx, hl⟩ := forall_mem_cons.mp h
    obtain ⟨oks, hoks, hle, hzero⟩ := ih hl
    obtain ⟨ok, hok⟩ := Option.isSome_iff_exists.mp hx
    refine ⟨ok :: oks, by simp [mapM_cons, hok, hoks], ?_, ?_⟩
    · rw [map_cons, sum_cons, length_cons]
      split <;> omega
    · rw [map_cons, sum_cons, forall_mem_cons, ← hzero, hok]
      cases ok <;> simp

/-- **A set is intact if every file of it is.** -/
theorem quickVerify_eq_intact (hcount : set.files.length < 2 ^ 32)
    (h : ∀ f ∈ set.files, (check metadata set evidence f).isSome) :
    quickVerify metadata set evidence = some .intact ↔
      ∀ f ∈ set.files, check metadata set evidence f = some true := by
  obtain ⟨oks, hoks, hle, hzero⟩ := mapM_check set.files h
  unfold quickVerify
  rw [hoks, Option.bind_some, sumFrom_eq _ (by decide), Nat.zero_add, fit_of_lt (by omega),
    Option.map_some, Option.some.injEq, ← hzero]
  split
  · next heq => exact iff_of_true rfl heq
  · next hne => exact iff_of_false (by simp) hne

theorem check_eq_true {f : Par2File} : check metadata set evidence f = some true ↔
    ∃ e crc, evidenceFor evidence f = some e ∧ e.crc32 = some crc ∧
      quickCheckFile f set.sliceSize ((metadata e.path).getD 0) crc = some true := by
  unfold check
  cases evidenceFor evidence f with
  | none => simp
  | some e =>
    cases hcrc : e.crc32 with
    | none => simp [hcrc]
    | some crc => simp [hcrc]

theorem check_isSome {f : Par2File} (h : ∀ e, (metadata e).getD 0 = f.length →
    divCeil f.length set.sliceSize * set.sliceSize < 2 ^ 64) :
    (check metadata set evidence f).isSome := by
  unfold check
  split
  · rfl
  · next e _ =>
    split
    · rfl
    · exact quickCheckFile_isSome _ (h e.path)

end Verify

theorem divCeil_mul_lt {len : Nat} (hs : s < 2 ^ 64) (hlen : len ≤ 2 ^ 63) :
    divCeil len s * s < 2 ^ 64 := by
  rcases Nat.eq_zero_or_pos s with rfl | hpos
  · simp
  · have hlt := (divCeil_mul hpos len).2
    by_cases hone : len ≤ s
    · -- one slice, or none
      have hcount : divCeil len s ≤ 1 := by
        by_contra hmore
        have : 2 * s ≤ divCeil len s * s := Nat.mul_le_mul_right s (by omega)
        omega
      have hmul : divCeil len s * s ≤ 1 * s := Nat.mul_le_mul_right s hcount
      omega
    · omega

/-! ### The claim -/

/-- **Quick verification is sound and complete,** for files of up to 2 ^ 63 bytes. -/
theorem quickVerify_exact :
    (∀ (name : List Char) (s : Nat) (bs cs : Bytes), 1 ≤ bs.length → 1 ≤ s → s < 2 ^ 64 →
      cs.length ≤ 2 ^ 63 → quickCheckFile (par2File name s bs) s cs.length (crc32 cs) =
        some (decide (cs.length = bs.length ∧ crc32 cs = crc32 bs))) ∧
    (∀ (f : Par2File) (s diskLen : Nat) (crc : BitVec 32), s < 2 ^ 64 → diskLen ≤ 2 ^ 63 →
      (quickCheckFile f s diskLen crc).isSome) ∧
    ∀ (metadata : PathBuf → Option Nat) (set : Par2Set) (evidence : List DownloadEvidence),
      (∀ p len, metadata p = some len → len ≤ 2 ^ 63) → set.sliceSize < 2 ^ 64 →
      set.files.length < 2 ^ 32 →
      (quickVerify metadata set evidence = some .intact ↔ ∀ f ∈ set.files, ∃ e crc,
        evidenceFor evidence f = some e ∧ e.crc32 = some crc ∧
          quickCheckFile f set.sliceSize ((metadata e.path).getD 0) crc = some true) := by
  refine ⟨fun name s bs cs hbs hs hs64 hcs => ?_, fun f s diskLen crc hs64 hdisk => ?_,
    fun metadata set evidence hmetadata hs64 hcount => ?_⟩
  · by_cases hlen : cs.length = bs.length
    · exact quickCheckFile_sliceCrcs hbs hs (divCeil_mul_lt hs64 (hlen ▸ hcs)) _
    · unfold quickCheckFile
      rw [if_pos (.inl hlen)]
      simp [hlen]
  · exact quickCheckFile_isSome _ fun heq => divCeil_mul_lt hs64 (heq ▸ hdisk)
  · rw [quickVerify_eq_intact hcount fun f _ => check_isSome fun p hp => ?_]
    · simp only [check_eq_true]
    · refine divCeil_mul_lt hs64 (hp ▸ ?_)
      cases hlen : metadata p with
      | none => exact Nat.zero_le _
      | some len => exact hmetadata p len hlen

theorem quickVerify_exact_abc :
    quickCheckFile (par2File [] 2 [1, 2, 3]) 2 3 (crc32 [1, 2, 3]) = some true ∧
      quickVerify (fun _ => some 3) ⟨2, [par2File ['a'] 2 [1, 2, 3]], 0⟩
        [⟨[[0x61]], some (crc32 [1, 2, 3])⟩] = some .intact := by
  have hfile : ∀ name, quickCheckFile (par2File name 2 [1, 2, 3]) 2 3 (crc32 [1, 2, 3]) =
      some true := by
    intro name
    refine (quickVerify_exact.1 name 2 [1, 2, 3] [1, 2, 3] (by decide) (by decide) (by decide)
      (by decide)).trans ?_
    simp
  refine ⟨hfile [], (quickVerify_exact.2.2 _ _ _ ?_ (by decide) (by decide)).mpr ?_⟩
  · rintro p len hlen
    obtain rfl := Option.some.inj hlen
    decide
  · intro f hf
    rw [mem_singleton.mp hf]
    exact ⟨⟨[[0x61]], some (crc32 [1, 2, 3])⟩, crc32 [1, 2, 3], by rfl, rfl, hfile ['a']⟩

/-! ### Beyond the bounds -/

theorem quickCheckFile_eq_none {name : List Char} (hs : 1 ≤ s)
    (h : 2 ^ 64 ≤ divCeil bs.length s * s) (crc : BitVec 32) :
    quickCheckFile (par2File name s bs) s bs.length crc = none := by
  have hlength : (sliceCrcs s bs).length = divCeil bs.length s := by
    rw [sliceCrcs, length_map, length_range]
  have hne : sliceCrcs s bs ≠ [] := by
    refine ne_nil_of_length_pos ?_
    rw [hlength]
    refine Nat.pos_of_ne_zero fun hzero => ?_
    rw [hzero, Nat.zero_mul] at h
    omega
  have hguard : ¬(bs.length ≠ bs.length ∨ sliceCrcs s bs = [] ∨ s = 0) := by
    simp [hne]
    omega
  unfold quickCheckFile par2File
  simp only []
  rw [if_neg hguard, if_neg (not_not_intro hlength)]
  have hmul : mul 64 (divCeil bs.length s) s = none := if_neg (Nat.not_lt.mpr h)
  rw [hmul]
  rfl

theorem quickVerify_nil (metadata : PathBuf → Option Nat) (set : Par2Set) :
    quickVerify metadata set [] = (fit 32 set.files.length).map fun damaged =>
      if damaged = 0 then .intact else .repairable set.recoveryBlocks 0 := by
  have hall : ∀ l : List Par2File,
      l.mapM (check metadata set []) = some (l.map fun _ => false) := by
    intro l
    induction l with
    | nil => simp
    | cons f l ih =>
      have hf : check metadata set [] f = some false := rfl
      simp [mapM_cons, hf, ih]
  unfold quickVerify
  rw [hall, Option.bind_some, sumFrom_eq _ (by decide), map_map, Nat.zero_add]
  simp [Function.comp_def]

/-- **Two slices that end at 2 ^ 64**, and a set of 2 ^ 32 files none of which is there. -/
theorem overflow_beyond :
    (∃ bs : Bytes, bs.length = 2 ^ 64 - 1 ∧
      quickCheckFile (par2File [] (2 ^ 63) bs) (2 ^ 63) bs.length (crc32 bs) = none) ∧
    ∃ set : Par2Set, set.files.length = 2 ^ 32 ∧ quickVerify (fun _ => none) set [] = none := by
  refine ⟨⟨List.replicate (2 ^ 64 - 1) 0, length_replicate, ?_⟩,
    ⟨⟨1, List.replicate (2 ^ 32) ⟨[], 1, []⟩, 0⟩, length_replicate, ?_⟩⟩
  · refine quickCheckFile_eq_none (by decide) ?_ _
    rw [length_replicate]
    decide
  · rw [quickVerify_nil]
    simp only [length_replicate]
    rfl

end Nzbd.QuickVerify
