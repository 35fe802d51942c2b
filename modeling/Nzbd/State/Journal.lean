import Nzbd.Lib.Numeral
import Nzbd.Types

/-!
# The segment journal

A journal is a file of JSON lines that is only appended to.  A crash may cut it
anywhere inside the last record, and the daemon then opens the same file for
append again.  `replayFile` reads the records back, line by line, and stops at
the first line that is not a record.

The serializer is outside the repository; `Codec` is what the journal relies on.
`canonicalCodec` writes a record the way the serializer does and reads back what
it has written.

`Disk` follows one journal file through appends, cuts and compactions, and
`keepsAll_iff_settledAppends` says which histories lose nothing but torn records: those
that never append to a file whose last line is torn.
-/

namespace Nzbd.State

open List
open Utf8 (ascii)

def lf : UInt8 := 0x0A

structure JournalRecord where
  job : JobId
  file : FileId
  segmentNumber : Nat
  /-- Position of the decoded part in the output file. -/
  offset : Nat
  len : Nat
  crc32 : BitVec 32
  /-- Total size of the output file. -/
  fileSize : Nat
  deriving DecidableEq

def JournalRecord.segRef (r : JournalRecord) : SegRef := ⟨r.job, r.file, r.segmentNumber⟩

/-- What the journal relies on of the serializer. -/
structure Codec where
  toVec : JournalRecord → List UInt8
  fromSlice : List UInt8 → Option JournalRecord
  /-- A record is read back. -/
  fromSlice_toVec : ∀ r, fromSlice (toVec r) = some r
  /-- Nothing is read from an empty line. -/
  fromSlice_nil : fromSlice [] = none
  /-- Control characters are not written raw. -/
  lf_not_mem : ∀ r, lf ∉ toVec r
  /-- A record that ends early is refused. -/
  fromSlice_cut : ∀ r p, p <+: toVec r → p ≠ toVec r → fromSlice p = none
  /-- A record that starts inside or behind another one is refused. -/
  fromSlice_glued : ∀ r p s, p <+: toVec r → p ≠ [] → fromSlice (p ++ toVec s) = none

namespace Codec

variable (c : Codec)

/-- What `append` writes. -/
def line (r : JournalRecord) : List UInt8 := c.toVec r ++ [lf]

/-- Records up to the first line that is none; empty lines are passed over. -/
def replayLines : List (List UInt8) → List JournalRecord
  | [] => []
  | l :: ls =>
    if l = [] then replayLines ls
    else
      match c.fromSlice l with
      | some r => r :: replayLines ls
      | none => []

def replayFile (bytes : List UInt8) : List JournalRecord := c.replayLines (bytes.splitOn lf)

variable {c}

theorem toVec_ne_nil (r : JournalRecord) : c.toVec r ≠ [] := by
  intro h
  have hr := c.fromSlice_toVec r
  rw [h, c.fromSlice_nil] at hr
  nomatch hr

theorem replayFile_line (r : JournalRecord) (rest : List UInt8) :
    c.replayFile (c.line r ++ rest) = r :: c.replayFile rest := by
  rw [replayFile, line, append_assoc, singleton_append,
    splitOn_append_cons_self_of_not_mem (c.lf_not_mem r), replayLines,
    if_neg (toVec_ne_nil r), c.fromSlice_toVec]
  rfl

theorem replayFile_lines (rs : List JournalRecord) (rest : List UInt8) :
    c.replayFile (rs.flatMap c.line ++ rest) = rs ++ c.replayFile rest := by
  induction rs with
  | nil => rfl
  | cons r rs ih => rw [flatMap_cons, append_assoc, replayFile_line, ih]; rfl

variable {r : JournalRecord}

/-- **A record appended to a torn line is lost**, and so is what follows it. -/
theorem replayFile_glued {r s : JournalRecord} {p : List UInt8} (hp : p <+: c.toVec r)
    (hne : p ≠ []) (rest : List UInt8) : c.replayFile (p ++ c.line s ++ rest) = [] := by
  have hlf : lf ∉ p ++ c.toVec s := by
    rw [mem_append]
    rintro (h | h)
    · exact c.lf_not_mem r (hp.subset h)
    · exact c.lf_not_mem s h
  rw [replayFile, line, ← append_assoc, append_assoc, singleton_append,
    splitOn_append_cons_self_of_not_mem hlf, replayLines, if_neg (by simp [hne]),
    c.fromSlice_glued r p s hp hne]

end Codec

/-! ### The format on disk -/

namespace Canonical

open Numeral (dec takeDec isDigit)

def openBrace : UInt8 := 0x7B

def closeBrace : UInt8 := 0x7D

def fields (r : JournalRecord) : List (List UInt8 × Nat) :=
  [(ascii "\"job\":", r.job), (ascii ",\"file\":", r.file),
    (ascii ",\"segment_number\":", r.segmentNumber), (ascii ",\"offset\":", r.offset),
    (ascii ",\"len\":", r.len), (ascii ",\"crc32\":", r.crc32.toNat),
    (ascii ",\"file_size\":", r.fileSize)]

def fieldsText (fs : List (List UInt8 × Nat)) : List UInt8 := fs.flatMap fun f => f.1 ++ dec f.2

def toVec (r : JournalRecord) : List UInt8 :=
  openBrace :: fieldsText (fields r) ++ [closeBrace]

def takeFields : List (List UInt8) → List UInt8 → Option (List Nat × List UInt8)
  | [], s => some ([], s)
  | k :: ks, s =>
    if k.isPrefixOf s then
      (takeDec (s.drop k.length)).bind fun r => (takeFields ks r.2).map fun q => (r.1 :: q.1, q.2)
    else none

def keys : List (List UInt8) := (fields ⟨0, 0, 0, 0, 0, 0, 0⟩).map Prod.fst

def ofValues : List Nat → Option JournalRecord
  | [job, file, number, offset, len, crc, size] =>
    some ⟨job, file, number, offset, len, BitVec.ofNat 32 crc, size⟩
  | _ => none

/-- Read a line that was written by `toVec`, and nothing else. -/
def fromSlice (s : List UInt8) : Option JournalRecord :=
  match s with
  | [] => none
  | _ :: s' => (takeFields keys s').bind fun q => (ofValues q.1).filter fun r => toVec r = s

theorem takeFields_fieldsText {b : UInt8} (hb : isDigit b = false) (rest : List UInt8)
    (fs : List (List UInt8 × Nat)) (hfs : ∀ f ∈ fs, ∃ x, f.1.head? = some x ∧ isDigit x = false) :
    takeFields (fs.map Prod.fst) (fieldsText fs ++ b :: rest) =
      some (fs.map Prod.snd, b :: rest) := by
  induction fs with
  | nil => rfl
  | cons f fs ih =>
    have hrest := ih fun g hg => hfs g (by simp [hg])
    -- the number ends where the next key or the closing brace starts
    obtain ⟨x, y, hx, hy⟩ : ∃ x y, isDigit x = false ∧ fieldsText fs ++ b :: rest = x :: y := by
      cases fs with
      | nil => exact ⟨b, rest, hb, rfl⟩
      | cons g gs =>
        obtain ⟨x, hx, hd⟩ := hfs g (by simp)
        obtain ⟨k, v⟩ := g
        cases k with
        | nil => nomatch hx
        | cons z k =>
          have hz : z = x := by simpa using hx
          exact ⟨z, _, by rw [hz]; exact hd, rfl⟩
    have hpre : f.1.isPrefixOf (fieldsText (f :: fs) ++ b :: rest) = true := by
      rw [List.isPrefixOf_iff_prefix]
      exact ⟨dec f.2 ++ (fieldsText fs ++ b :: rest), by simp [fieldsText]⟩
    have hdrop : (fieldsText (f :: fs) ++ b :: rest).drop f.1.length =
        dec f.2 ++ (fieldsText fs ++ b :: rest) := by
      simp [fieldsText]
    rw [map_cons, takeFields, if_pos hpre, hdrop, hy, Numeral.takeDec_dec f.2 hx,
      Option.bind_some, ← hy, hrest]
    rfl

theorem fromSlice_toVec (r : JournalRecord) : fromSlice (toVec r) = some r := by
  have hkeys : keys = (fields r).map Prod.fst := rfl
  have hread := takeFields_fieldsText (b := closeBrace) (by decide) [] (fields r) (by
    intro f hf
    simp only [fields, mem_cons, not_mem_nil, or_false] at hf
    rcases hf with rfl | rfl | rfl | rfl | rfl | rfl | rfl <;> exact ⟨_, rfl, by decide⟩)
  rw [toVec, cons_append, fromSlice, hkeys, hread, Option.bind_some]
  have hof : ofValues ((fields r).map Prod.snd) = some r := by
    simp [fields, ofValues]
  rw [hof, Option.filter_some, if_pos]
  simp [toVec]

theorem toVec_of_fromSlice {s : List UInt8} (h : fromSlice s = some r) :
    toVec r = s := by
  unfold fromSlice at h
  cases s with
  | nil => nomatch h
  | cons b s' =>
    obtain ⟨q, -, hq⟩ := Option.bind_eq_some_iff.mp h
    obtain ⟨-, hr⟩ := Option.filter_eq_some_iff.mp hq
    simpa using hr

theorem not_mem_fieldsText {x : UInt8} (hx : x = openBrace ∨ x = closeBrace ∨ x = lf)
    (r : JournalRecord) : x ∉ fieldsText (fields r) := by
  have hd : ∀ n, x ∉ dec n := by
    intro n hn
    have := Numeral.isDigit_of_mem_dec x hn
    rcases hx with rfl | rfl | rfl <;> exact absurd this (by decide)
  simp only [fieldsText, fields, flatMap_cons, flatMap_nil, mem_append, hd, or_false]
  rcases hx with rfl | rfl | rfl <;> decide

theorem not_mem_toVec {x : UInt8} (hx : x = lf) (r : JournalRecord) : x ∉ toVec r := by
  have hft := not_mem_fieldsText (.inr (.inr hx)) r
  subst hx
  simp only [toVec, mem_append, mem_cons, not_mem_nil, hft, or_false]
  decide

theorem fromSlice_cut (r : JournalRecord) (p : List UInt8) (hp : p <+: toVec r)
    (hne : p ≠ toVec r) : fromSlice p = none := by
  rw [Option.eq_none_iff_forall_ne_some]
  intro s hs
  have hs' := toVec_of_fromSlice hs
  -- a record ends in the only closing brace it has
  have hclose : closeBrace ∈ p := by
    rw [← hs', toVec]
    simp
  have hin : p <+: openBrace :: fieldsText (fields r) := by
    rcases prefix_concat_iff.mp hp with h | h
    · exact absurd h hne
    · exact h
  have := hin.subset hclose
  rw [mem_cons] at this
  rcases this with h | h
  · exact absurd h (by decide)
  · exact not_mem_fieldsText (.inr (.inl rfl)) r h

theorem fromSlice_glued (p : List UInt8) (s : JournalRecord) (hne : p ≠ []) :
    fromSlice (p ++ toVec s) = none := by
  rw [Option.eq_none_iff_forall_ne_some]
  intro r hr
  have hr' := toVec_of_fromSlice hr
  -- a record starts with the only opening brace it has
  cases p with
  | nil => exact absurd rfl hne
  | cons b p =>
    rw [toVec, cons_append, cons_append] at hr'
    have hmem : openBrace ∈ p ++ toVec s := by simp [toVec]
    rw [← (cons.inj hr').2, mem_append, mem_singleton] at hmem
    rcases hmem with h | h
    · exact not_mem_fieldsText (.inl rfl) r h
    · exact absurd h (by decide)

end Canonical

def canonicalCodec : Codec where
  toVec := Canonical.toVec
  fromSlice := Canonical.fromSlice
  fromSlice_toVec := Canonical.fromSlice_toVec
  fromSlice_nil := rfl
  lf_not_mem := Canonical.not_mem_toVec rfl
  fromSlice_cut := Canonical.fromSlice_cut
  fromSlice_glued _ p s _ := Canonical.fromSlice_glued p s

/-! ### A file through crashes -/

/-- What is left on disk of one append: the record, and how many bytes of its
line. -/
structure Piece where
  record : JournalRecord
  kept : Nat

inductive Event
  | append (r : JournalRecord)
  /-- A crash leaves at most `k` bytes of the last record. -/
  | tear (k : Nat)
  /-- The records were folded into a snapshot and the file removed. -/
  | compact

/-- The journal file of one job, as the pieces its appends have left. -/
abbrev Disk := List Piece

section

variable (c : Codec)

def Piece.bytes (p : Piece) : List UInt8 := (c.line p.record).take p.kept

def Piece.Whole (p : Piece) : Prop := p.kept = (c.line p.record).length

instance (p : Piece) : Decidable (p.Whole c) := inferInstanceAs (Decidable (_ = _))

namespace Disk

def file (d : Disk) : List UInt8 := d.flatMap (Piece.bytes c)

/-- The records whose append completed and was not undone by a crash. -/
def completed (d : Disk) : List JournalRecord := (d.filter (Piece.Whole c)).map Piece.record

def apply (d : Disk) : Event → Disk
  | .append r => d ++ [⟨r, (c.line r).length⟩]
  | .tear k =>
    match d.getLast? with
    | none => d
    | some p => if min k p.kept = 0 then d.dropLast else d.dropLast ++ [⟨p.record, min k p.kept⟩]
  | .compact => []

def run (es : List Event) : Disk := es.foldl (apply c) []

/-- The file does not end in a torn line. -/
def Settled (d : Disk) : Prop := ∀ p, d.getLast? = some p → p.Whole c

/-- Every record whose append completed is read back, in order. -/
def Keeps (d : Disk) : Prop := (d.completed c).Sublist (c.replayFile (d.file c))

end Disk

variable {c}

/-- The piece an append leaves. -/
def wholePiece (c : Codec) (r : JournalRecord) : Piece := ⟨r, (c.line r).length⟩

theorem bytes_whole (r : JournalRecord) : (wholePiece c r).bytes c = c.line r := take_length

theorem bytes_torn {k : Nat} (hk : k < (c.line r).length) :
    Piece.bytes c ⟨r, k⟩ <+: c.toVec r := by
  rw [Codec.line, length_append, length_singleton] at hk
  show (c.toVec r ++ [lf]).take k <+: c.toVec r
  rw [take_append_of_le_length (by omega)]
  exact take_prefix k _

theorem bytes_torn_ne_nil {k : Nat} (hpos : 0 < k) :
    Piece.bytes c ⟨r, k⟩ ≠ [] := by
  intro h
  rcases take_eq_nil_iff.mp h with h | h
  · exact absurd h (Nat.ne_of_gt hpos)
  · simp [Codec.line] at h

/-- Whole lines, and at most one torn one at the end. -/
inductive Tidy (c : Codec) : Disk → Prop
  | whole (rs : List JournalRecord) : Tidy c (rs.map (wholePiece c))
  | torn (rs : List JournalRecord) (r : JournalRecord) (k : Nat) (hpos : 0 < k)
      (hk : k < (c.line r).length) : Tidy c (rs.map (wholePiece c) ++ [⟨r, k⟩])

theorem file_whole (rs : List JournalRecord) :
    Disk.file c (rs.map (wholePiece c)) = rs.flatMap c.line := by
  rw [Disk.file, flatMap_map]
  exact flatMap_congr fun r _ => bytes_whole r

theorem completed_whole (rs : List JournalRecord) :
    Disk.completed c (rs.map (wholePiece c)) = rs := by
  have hall : (rs.map (wholePiece c)).filter (Piece.Whole c) = rs.map (wholePiece c) := by
    rw [filter_eq_self]
    intro p hp
    obtain ⟨r, -, rfl⟩ := mem_map.mp hp
    exact decide_eq_true rfl
  rw [Disk.completed, hall, map_map]
  exact map_id rs

theorem completed_append (d e : Disk) :
    Disk.completed c (d ++ e) = d.completed c ++ e.completed c := by
  rw [Disk.completed, filter_append, map_append]
  rfl

theorem not_whole {k : Nat} (hk : k < (c.line r).length) :
    ¬ Piece.Whole c ⟨r, k⟩ := Nat.ne_of_lt hk

theorem completed_torn {k : Nat} (hk : k < (c.line r).length) :
    Disk.completed c [⟨r, k⟩] = [] := by
  simp [Disk.completed, not_whole hk]

/-- **A tidy file loses nothing.** -/
theorem Tidy.keeps {d : Disk} (h : Tidy c d) : d.Keeps c := by
  cases h with
  | whole rs =>
    rw [Disk.Keeps, completed_whole, file_whole, ← append_nil (rs.flatMap c.line),
      Codec.replayFile_lines]
    exact sublist_append_left _ _
  | torn rs r k hpos hk =>
    rw [Disk.Keeps, completed_append, completed_whole, completed_torn hk, Disk.file,
      flatMap_append, ← Disk.file, file_whole, Codec.replayFile_lines, append_nil]
    exact sublist_append_left _ _

/-- **One event keeps the file tidy**, if an append finds it settled. -/
theorem Tidy.apply {d : Disk} (h : Tidy c d) {e : Event}
    (he : ∀ r, e = .append r → d.Settled c) : Tidy c (d.apply c e) := by
  cases e with
  | append r =>
    cases h with
    | whole rs =>
      have := Tidy.whole (c := c) (rs ++ [r])
      rwa [map_append] at this
    | torn rs s k hpos hk =>
      have hw : Piece.Whole c ⟨s, k⟩ := he r rfl _ (by simp)
      exact absurd hw (not_whole hk)
  | tear k =>
    rw [Disk.apply]
    cases h with
    | whole rs =>
      rcases eq_nil_or_concat rs with rfl | ⟨rs, r, rfl⟩
      · exact .whole []
      · rw [concat_eq_append, map_append, map_singleton, getLast?_concat,
          dropLast_concat]
        show Tidy c (if min k (c.line r).length = 0 then rs.map (wholePiece c)
          else rs.map (wholePiece c) ++ [⟨r, min k (c.line r).length⟩])
        split_ifs with h0
        · exact .whole rs
        · rcases Nat.lt_or_ge k (c.line r).length with hlt | hge
          · rw [Nat.min_eq_left (by omega)] at h0 ⊢
            exact .torn rs r k (by omega) hlt
          · rw [Nat.min_eq_right hge]
            have := Tidy.whole (c := c) (rs ++ [r])
            rwa [map_append] at this
    | torn rs r n hpos hn =>
      rw [getLast?_concat, dropLast_concat]
      dsimp only
      split_ifs with h0
      · exact .whole rs
      · exact .torn rs r (min k n) (by omega) (by omega)
  | compact => exact .whole []

theorem Tidy.settled_of_keeps {d : Disk} (h : Tidy c d)
    (hk : (d.apply c (.append r)).Keeps c) : d.Settled c := by
  cases h with
  | whole rs =>
    intro p hp
    obtain ⟨s, -, rfl⟩ := mem_map.mp (mem_of_getLast? hp)
    rfl
  | torn rs s k hpos hlt =>
    exfalso
    have hr : Disk.completed c [⟨r, (c.line r).length⟩] = [r] := completed_whole [r]
    have hglue := Codec.replayFile_glued (s := r) (bytes_torn hlt) (bytes_torn_ne_nil hpos) []
    have hbytes : Piece.bytes c ⟨r, (c.line r).length⟩ = c.line r := bytes_whole r
    rw [Disk.Keeps, Disk.apply, completed_append, completed_append, completed_whole,
      completed_torn hlt, hr, Disk.file, flatMap_append, flatMap_append, ← Disk.file,
      file_whole, flatMap_singleton, flatMap_singleton, append_assoc _ (Piece.bytes c _),
      Codec.replayFile_lines, hbytes] at hk
    rw [append_nil] at hglue
    rw [hglue] at hk
    have := hk.length_le
    simp at this

/-! ### Histories -/

/-- At every point of the history the file gives back every completed record. -/
def KeepsAll (c : Codec) (es : List Event) : Prop :=
  ∀ es', es' <+: es → (Disk.run c es').Keeps c

/-- Whenever the history appends, the file does not end in a torn line. -/
def SettledAppends (c : Codec) (es : List Event) : Prop :=
  ∀ es' r, es' ++ [.append r] <+: es → (Disk.run c es').Settled c

theorem run_concat (es : List Event) (e : Event) :
    Disk.run c (es ++ [e]) = (Disk.run c es).apply c e := by
  rw [Disk.run, foldl_append]
  rfl

theorem tidy_run {es : List Event} (h : SettledAppends c es) : Tidy c (Disk.run c es) := by
  induction es using reverseRecOn with
  | nil => exact .whole []
  | append_singleton es e ih =>
    rw [run_concat]
    apply Tidy.apply
    · exact ih fun es' r hp => h es' r (hp.trans (prefix_append _ _))
    · rintro r rfl
      exact h es r (prefix_refl _)

/-- **A history loses nothing but torn records exactly when it never appends to
a torn line.** -/
theorem keepsAll_iff_settledAppends (c : Codec) (es : List Event) :
    KeepsAll c es ↔ SettledAppends c es := by
  constructor
  · intro h
    induction es using List.reverseRecOn with
    | nil =>
      intro es' r hp
      simp at hp
    | append_singleton es e ih =>
      have hes : SettledAppends c es := ih fun es' hp => h es' (hp.trans (prefix_append _ _))
      intro es' r hp
      rcases prefix_concat_iff.mp hp with heq | hp'
      · obtain ⟨rfl, rfl⟩ := append_singleton_inj.mp heq
        have hlast := h _ (prefix_refl _)
        rw [run_concat] at hlast
        exact (tidy_run hes).settled_of_keeps hlast
      · exact hes es' r hp'
  · intro h es' hp
    exact (tidy_run fun es'' r hp' => h es'' r (hp'.trans hp)).keeps

end

def firstRecord : JournalRecord := ⟨1, 1, 1, 0, 1, 0, 2⟩

def secondRecord : JournalRecord := ⟨1, 1, 2, 1, 1, 0, 2⟩

/-- The first record is torn behind its fifth byte; the second is appended to
what is left and is not read back. -/
theorem not_keepsAll_torn :
    ¬ KeepsAll canonicalCodec [.append firstRecord, .tear 5, .append secondRecord] := by
  intro h
  have hlast := h _ (prefix_refl _)
  have hcompleted : Disk.completed canonicalCodec (Disk.run canonicalCodec
      [.append firstRecord, .tear 5, .append secondRecord]) = [secondRecord] := by decide
  have hreplay : canonicalCodec.replayFile (Disk.file canonicalCodec (Disk.run canonicalCodec
      [.append firstRecord, .tear 5, .append secondRecord])) = [] := by decide
  rw [Disk.Keeps, hcompleted, hreplay] at hlast
  nomatch hlast

end Nzbd.State
