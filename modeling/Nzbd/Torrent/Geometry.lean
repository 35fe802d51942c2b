import Mathlib.Algebra.BigOperators.Group.List.Basic
import Mathlib.Algebra.Order.Floor.Div
import Mathlib.GroupTheory.GroupAction.Ring
import Nzbd.Lib.Checked
import Nzbd.Types

/-!
# The geometry of a torrent

The payload of a torrent is cut into pieces of one length, the last one of what is left, and a
piece into chunks of 16 KiB.  `geometry` checks the hashes of the pieces against the length of
the payload, and counts the chunks without going through the pieces.  The operations of the
processor are those of `Checked`: `none` is a panic.
-/

namespace Nzbd.Torrent.Geometry

open Checked

def rqbitChunkBytes : Nat := 16 * 1024

structure TorrentMetaV1Info where
  pieceLength : Nat
  pieceLength_lt : pieceLength < 2 ^ 32
  /-- `iter_file_lengths`, of another package. -/
  fileLengths : Except Text (List Nat)
  pieces : List UInt8

inductive TorrentError
  | engine (message : Text)
  | invalidMetainfoGeometry (message : String)

/-- `u64::div_ceil`. -/
def divCeil (a b : Nat) : Option Nat := do
  let quotient ← div a b
  if a % b = 0 then some quotient else add 64 quotient 1

def totalChunks (pieces normal last : Nat) : Option Nat := do
  add 64 (← mul 64 (← sub pieces 1) normal) last

def invalid {α : Type} (message : String) : Option (Except TorrentError α) :=
  some (.error (.invalidMetainfoGeometry message))

/-- The body of `validate_metainfo_geometry`, with the chunks that it has counted. -/
def geometry (info : TorrentMetaV1Info) : Option (Except TorrentError Nat) :=
  if info.pieceLength = 0 then invalid "piece length must be greater than zero"
  else match info.fileLengths with
  | .error message => some (.error (.engine message))
  | .ok lengths =>
    match sumFrom 64 0 lengths with
    | none => invalid "aggregate payload length overflows u64"
    | some total =>
      if total = 0 then invalid "aggregate payload length must be greater than zero"
      else if info.pieces.length % 20 ≠ 0 then
        invalid "v1 piece hashes must be a whole number of 20-byte SHA-1 values"
      else do
        let expected ← divCeil total info.pieceLength
        if info.pieces.length / 20 ≠ expected then
          invalid "piece hash count does not match payload length and piece length"
        else
          let normal ← divCeil info.pieceLength rqbitChunkBytes
          let remainder := total % info.pieceLength
          let last ← divCeil (if remainder = 0 then info.pieceLength else remainder) rqbitChunkBytes
          match totalChunks expected normal last with
          | none => invalid "aggregate chunk count overflows the adapter representation"
          | some chunks =>
            if 2 ^ 32 - 1 < chunks then
              invalid "aggregate chunk count exceeds rqbit's u32 representation"
            else some (.ok chunks)

def validateMetainfoGeometry (info : TorrentMetaV1Info) : Option (Except TorrentError Unit) :=
  (geometry info).map fun r => r.map fun _ => ()

/-! ### Pieces -/

/-- The lengths of `n` pieces. -/
def pieceLengths (pieceLength total n : Nat) : List Nat :=
  (List.range n).map fun i => min pieceLength (total - i * pieceLength)

/-- What a geometry is to be: a hash for each piece, and chunks that can be counted with 32 bits. -/
structure Exact (info : TorrentMetaV1Info) (lengths : List Nat) (chunks : Nat) : Prop where
  pieceLength : 0 < info.pieceLength
  fileLengths : info.fileLengths = .ok lengths
  total : 0 < lengths.sum
  hashes : info.pieces.length = 20 * (lengths.sum ⌈/⌉ info.pieceLength)
  counted : chunks = ((pieceLengths info.pieceLength lengths.sum (lengths.sum ⌈/⌉ info.pieceLength)).map
    (· ⌈/⌉ rqbitChunkBytes)).sum
  fits : chunks < 2 ^ 32

theorem ceilDiv_eq {a b k : Nat} (hlow : k * b < a) (hhigh : a ≤ (k + 1) * b) : a ⌈/⌉ b = k + 1 := by
  have hsplit : (k + 1) * b = k * b + b := Nat.succ_mul k b
  rw [Nat.ceilDiv_eq_add_pred_div]
  refine Nat.div_eq_of_lt_le (by omega) ?_
  have hnext : (k + 1 + 1) * b = (k + 1) * b + b := Nat.succ_mul (k + 1) b
  omega

theorem divCeil_eq {a b : Nat} (hb : 0 < b) (ha : a < 2 ^ 64) : divCeil a b = some (a ⌈/⌉ b) := by
  have hdiv := Nat.div_add_mod' a b
  have hmod := Nat.mod_lt a hb
  unfold divCeil
  rw [div_of_pos hb]
  show (if a % b = 0 then some (a / b) else add 64 (a / b) 1) = _
  split
  · next h =>
    rw [h, Nat.add_zero] at hdiv
    conv_rhs => rw [← hdiv, Nat.mul_comm]
    rw [← smul_eq_mul, smul_ceilDiv hb]
  · next h =>
    have hle : a / b ≤ a := Nat.div_le_self a b
    have hlt : a / b < a := by
      refine lt_of_le_of_ne hle fun heq => h ?_
      rw [heq] at hdiv
      have := Nat.le_mul_of_pos_right a hb
      omega
    have hsplit : (a / b + 1) * b = a / b * b + b := Nat.succ_mul (a / b) b
    rw [add_of_lt (by omega), ceilDiv_eq (k := a / b) (by omega) (by omega)]

/-- **All pieces but the last one are as long as they may be.** -/
theorem pieces_of_pos {pieceLength total : Nat} (hpiece : 0 < pieceLength) (htotal : 0 < total) :
    ∃ m last, total = m * pieceLength + last ∧ 0 < last ∧ last ≤ pieceLength ∧ total ⌈/⌉ pieceLength = m + 1 ∧
      (if total % pieceLength = 0 then pieceLength else total % pieceLength) = last := by
  have hdiv := Nat.div_add_mod' total pieceLength
  have hmod := Nat.mod_lt total hpiece
  split
  · next h =>
    obtain ⟨m, hm⟩ : ∃ m, total / pieceLength = m + 1 := by
      refine Nat.exists_eq_succ_of_ne_zero fun hzero => ?_
      rw [hzero] at hdiv
      omega
    rw [hm, h, Nat.succ_mul] at hdiv
    exact ⟨m, pieceLength, by omega, hpiece, le_rfl, ceilDiv_eq (by omega) (by rw [Nat.succ_mul]; omega), rfl⟩
  · next h =>
    exact ⟨total / pieceLength, _, hdiv.symm, Nat.pos_of_ne_zero h, hmod.le,
      ceilDiv_eq (by omega) (by rw [Nat.succ_mul]; omega), rfl⟩

/-- **The sum over the pieces is the closed formula.** -/
theorem sum_pieceLengths {pieceLength last : Nat} (m : Nat) (hlast : last ≤ pieceLength) (f : Nat → Nat) :
    ((pieceLengths pieceLength (m * pieceLength + last) (m + 1)).map f).sum = m * f pieceLength + f last := by
  have hbefore : ((List.range m).map fun i => min pieceLength (m * pieceLength + last - i * pieceLength)) =
      List.replicate m pieceLength := by
    refine List.eq_replicate_iff.mpr ⟨by simp, fun n hn => ?_⟩
    obtain ⟨i, hi, rfl⟩ := List.mem_map.mp hn
    have hle : (i + 1) * pieceLength ≤ m * pieceLength := Nat.mul_le_mul_right _ (List.mem_range.mp hi)
    rw [Nat.succ_mul] at hle
    exact min_eq_left (by omega)
  have hend : min pieceLength (m * pieceLength + last - m * pieceLength) = last := by
    rw [Nat.add_sub_cancel_left]
    exact min_eq_right hlast
  rw [pieceLengths, List.range_succ, List.map_append, hbefore, List.map_singleton, hend]
  simp

/-! ### What is accepted -/

theorem totalChunks_eq {m normal last : Nat} : totalChunks (m + 1) normal last = fit 64 (m * normal + last) := by
  unfold totalChunks
  rw [sub_of_le (Nat.le_add_left 1 m)]
  show (mul 64 m normal).bind (add 64 · last) = _
  by_cases h : m * normal < 2 ^ 64
  · rw [mul_of_lt h]
    rfl
  · have hsum : ¬m * normal + last < 2 ^ 64 := by omega
    unfold mul fit
    rw [if_neg h, if_neg hsum]
    rfl

theorem exact_iff {info : TorrentMetaV1Info} {lengths : List Nat} {m last chunks : Nat}
    (hpiece : 0 < info.pieceLength) (hlengths : info.fileLengths = .ok lengths) (htotal : 0 < lengths.sum)
    (hsum : lengths.sum = m * info.pieceLength + last) (hlast : last ≤ info.pieceLength)
    (hpieces : lengths.sum ⌈/⌉ info.pieceLength = m + 1) :
    (∃ lengths, Exact info lengths chunks) ↔ info.pieces.length = 20 * (m + 1) ∧
      chunks = m * (info.pieceLength ⌈/⌉ rqbitChunkBytes) + last ⌈/⌉ rqbitChunkBytes ∧ chunks < 2 ^ 32 := by
  have hcounted := sum_pieceLengths m hlast (· ⌈/⌉ rqbitChunkBytes)
  constructor
  · rintro ⟨lengths', he⟩
    obtain rfl := Except.ok.inj (hlengths.symm.trans he.fileLengths)
    have hhashes := he.hashes
    have hchunks := he.counted
    rw [hpieces] at hhashes hchunks
    rw [hsum, hcounted] at hchunks
    exact ⟨hhashes, hchunks, he.fits⟩
  · rintro ⟨hhashes, hchunks, hfits⟩
    refine ⟨lengths, hpiece, hlengths, htotal, by rw [hpieces, hhashes], ?_, hfits⟩
    rw [hpieces, hsum, hcounted, hchunks]

/-- The chunks hold the payload. -/
theorem total_le {pieceLength last m : Nat} : m * pieceLength + last ≤
    rqbitChunkBytes * (m * (pieceLength ⌈/⌉ rqbitChunkBytes) + last ⌈/⌉ rqbitChunkBytes) := by
  have hchunk : 0 < rqbitChunkBytes := by decide
  have hnormal : pieceLength ≤ rqbitChunkBytes * (pieceLength ⌈/⌉ rqbitChunkBytes) := le_smul_ceilDiv hchunk
  have hlast : last ≤ rqbitChunkBytes * (last ⌈/⌉ rqbitChunkBytes) := le_smul_ceilDiv hchunk
  calc m * pieceLength + last
      ≤ m * (rqbitChunkBytes * (pieceLength ⌈/⌉ rqbitChunkBytes)) +
          rqbitChunkBytes * (last ⌈/⌉ rqbitChunkBytes) := Nat.add_le_add (Nat.mul_le_mul_left m hnormal) hlast
    _ = _ := by rw [Nat.mul_left_comm, ← Nat.mul_add]

theorem refused {info : TorrentMetaV1Info} (e : TorrentError)
    (h : ∀ chunks, ¬∃ lengths, Exact info lengths chunks) : ∃ r : Except TorrentError Nat,
      some (.error e) = some r ∧ ∀ chunks, r = .ok chunks ↔ ∃ lengths, Exact info lengths chunks :=
  ⟨_, rfl, fun chunks => iff_of_false nofun (h chunks)⟩

/-- **No panic, and what is accepted is exact.** -/
theorem geometry_spec (info : TorrentMetaV1Info) : ∃ r, geometry info = some r ∧
    ∀ chunks, r = .ok chunks ↔ ∃ lengths, Exact info lengths chunks := by
  unfold geometry
  split
  · next h => exact refused _ fun chunks ⟨_, he⟩ => absurd he.pieceLength (by omega)
  · next hpiece =>
    have hpos : 0 < info.pieceLength := Nat.pos_of_ne_zero hpiece
    have hlt := info.pieceLength_lt
    cases hlengths : info.fileLengths with
    | error message => exact refused _ fun chunks ⟨_, he⟩ => nomatch hlengths.symm.trans he.fileLengths
    | ok lengths =>
      simp only [sumFrom_eq lengths (by decide : 0 < 2 ^ 64), Nat.zero_add]
      by_cases hzero : lengths.sum = 0
      · rw [hzero]
        refine refused _ fun chunks ⟨lengths', he⟩ => ?_
        obtain rfl := Except.ok.inj (hlengths.symm.trans he.fileLengths)
        exact absurd he.total (by omega)
      obtain ⟨m, last, hsum, hlastpos, hlast, hpieces, hcode⟩ := pieces_of_pos hpos (Nat.pos_of_ne_zero hzero)
      have hexact := fun chunks =>
        @exact_iff info lengths m last chunks hpos hlengths (Nat.pos_of_ne_zero hzero) hsum hlast hpieces
      have hle : lengths.sum ≤ 16384 * (m * (info.pieceLength ⌈/⌉ rqbitChunkBytes) + last ⌈/⌉ rqbitChunkBytes) :=
        hsum ▸ total_le
      have hlarge (hcount : 2 ^ 32 ≤ m * (info.pieceLength ⌈/⌉ rqbitChunkBytes) + last ⌈/⌉ rqbitChunkBytes) :
          ∀ chunks, ¬∃ lengths, Exact info lengths chunks := fun chunks he => by
        obtain ⟨-, rfl, hfits⟩ := (hexact chunks).mp he
        omega
      by_cases hfit : lengths.sum < 2 ^ 64
      · rw [fit_of_lt hfit]
        simp only [hzero, if_false]
        split
        · next hmod => exact refused _ fun chunks he => absurd ((hexact chunks).mp he).1 (by omega)
        · rw [divCeil_eq hpos hfit, hpieces]
          simp only [Option.bind_eq_bind, Option.bind_some]
          split
          · exact refused _ fun chunks he => absurd ((hexact chunks).mp he).1 (by omega)
          · rw [hcode, divCeil_eq (by decide) (by omega), divCeil_eq (by decide) (by omega)]
            simp only [Option.bind_some, totalChunks_eq]
            by_cases hcount : m * (info.pieceLength ⌈/⌉ rqbitChunkBytes) + last ⌈/⌉ rqbitChunkBytes < 2 ^ 64
            · rw [fit_of_lt hcount]
              simp only []
              split
              · exact refused _ (hlarge (by omega))
              · refine ⟨_, rfl, fun chunks => Iff.trans ⟨fun h => ?_, ?_⟩ (hexact chunks).symm⟩
                · obtain rfl := Except.ok.inj h
                  exact ⟨by omega, rfl, by omega⟩
                · rintro ⟨-, rfl, -⟩
                  rfl
            · rw [fit, if_neg hcount]
              exact refused _ (hlarge (by omega))
      · rw [fit, if_neg hfit]
        exact refused _ (hlarge (by omega))

/-- **The geometry that is accepted is exact, and every exact one is accepted**, without a panic. -/
theorem validateMetainfoGeometry_iff (info : TorrentMetaV1Info) :
    (∃ r, validateMetainfoGeometry info = some r) ∧
      (validateMetainfoGeometry info = some (.ok ()) ↔ ∃ lengths chunks, Exact info lengths chunks) ∧
      ∀ chunks, geometry info = some (.ok chunks) ↔ ∃ lengths, Exact info lengths chunks := by
  obtain ⟨r, hr, hiff⟩ := geometry_spec info
  have hvalid : validateMetainfoGeometry info = some (r.map fun _ => ()) := by
    rw [validateMetainfoGeometry, hr]; rfl
  refine ⟨⟨_, hvalid⟩, ?_, fun chunks => by rw [hr, ← hiff]; exact Option.some_inj⟩
  rw [hvalid]
  cases r with
  | error e =>
    refine iff_of_false nofun ?_
    rintro ⟨lengths, chunks, he⟩
    cases (hiff chunks).mpr ⟨lengths, he⟩
  | ok chunks =>
    obtain ⟨lengths, he⟩ := (hiff chunks).mp rfl
    exact iff_of_true rfl ⟨lengths, chunks, he⟩

end Nzbd.Torrent.Geometry
