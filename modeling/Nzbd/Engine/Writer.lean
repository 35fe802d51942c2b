import Nzbd.Engine.Owner
import Nzbd.Engine.Pool
import Nzbd.Lib.Bytes
import Nzbd.Yenc.Combine

/-!
# Assembling a file

One task writes a file.  The parts come from any connection in any order; each is written
at its offset, the first one that declares a size has the file filled up to it, and the
last step brings the file to the size declared and renames it.  The owner computes the
checksum of the whole from the checksums of the parts, if every part has been written and
each starts where the one before it ends.

The parts then are the bytes of the file up to their own end, and the owner does not
compare that with the size of the file.  `crc_of_file_iff` says that this comparison is all
that is missing: the checksum is computed from the bytes of the file exactly when parts
that lie end to end where the file does (`Fits`).  That is at the size that is known
last; and if a restart has left none, nothing cuts a file that has been filled up too far.
-/

namespace Nzbd.Engine

open List ByteMachine Bytes Utf8 Nzbd.Yenc YencDecoder

/-! ### What a connection hands over -/

/-- A part of a file as the decoder gives it. -/
structure Part where
  offset : Nat
  data : List UInt8
  crc : BitVec 32
  /-- The size of the whole file, from the header of this article. -/
  fileSize : Nat

/-- The part can come from an article, cut into chunks in some way. -/
def Part.Decoded (p : Part) : Prop :=
  ∃ chunks, let r := YencDecoder.new.pushAll [] chunks
    articleReport r.dec.takeResult r.out = .segment p.offset p.data p.crc p.fileSize

def Headed (s : Scan) : Prop := s.1.state ≠ .pre ∨ s.1.finished = true → 0 < s.1.header.size

theorem bodyByte_header (d : ByteState) (b : UInt8) (out : List UInt8) :
    (bodyByte d b out).state.1.header = d.header := by
  have hplain : ∀ (d : ByteState) (out : List UInt8), (plainByte d b out).1.header = d.header := by
    intro d out
    unfold plainByte
    split_ifs <;> rfl
  unfold bodyByte
  split_ifs
  · show (escByte d b out).1.header = d.header
    unfold escByte
    split_ifs <;> rfl
  · show (pendingEqByte d b out).1.header = d.header
    unfold pendingEqByte
    split_ifs <;> rfl
  · unfold dotByte loneDot
    cases d.dot with
    | none => exact hplain d out
    | seen =>
      dsimp only
      split_ifs
      · rfl
      · rfl
      · rfl
      · exact hplain _ _
    | seenCr =>
      dsimp only
      split_ifs
      · rfl
      · exact hplain _ _

theorem parseBegin_size {line : List UInt8} {h : YencHeader} (hp : parseBegin line = .ok h) :
    0 < h.size := by
  simp only [parseBegin] at hp
  split at hp
  · nomatch hp
  next g _ =>
    split_ifs at hp with hsize
    obtain rfl := Except.ok.inj hp
    exact Nat.pos_of_ne_zero hsize

theorem takeLine_size {d : ByteState} (h : d.state ≠ .pre) :
    (takeLine d).state.header.size = d.header.size := by
  unfold takeLine
  cases hs : d.state with
  | pre => exact absurd hs h
  | expectPart =>
    dsimp only
    split_ifs
    · split <;> rfl
    · rfl
    · rfl
  | body => rfl
  | control =>
    dsimp only
    split_ifs
    · split <;> rfl
    · rfl
  | drain =>
    dsimp only
    split_ifs <;> rfl

theorem takeLine_pre {d : ByteState} (h : d.state = .pre) :
    0 < (takeLine d).state.header.size ∨
      ((takeLine d).state.state = .pre ∧ (takeLine d).state.finished = d.finished ∧
        (takeLine d).state.header = d.header) := by
  unfold takeLine
  simp only [h]
  split_ifs
  · split
    · exact .inr ⟨rfl, rfl, rfl⟩
    next g hg =>
      refine .inl ?_
      split_ifs <;> exact parseBegin_size hg
  · exact .inr ⟨rfl, rfl, rfl⟩
  · exact .inr ⟨rfl, rfl, rfl⟩

theorem Headed.byteStep {s : Scan} (h : Headed s) (b : UInt8) : Headed (Yenc.byteStep s b).state := by
  obtain ⟨d, out⟩ := s
  by_cases hbody : d.state = .body
  · intro _
    rw [byteStep_body hbody, bodyByte_header]
    exact h (.inl (by simp [hbody]))
  · rw [byteStep_line hbody]
    split_ifs
    · have hmap : ((takeLine d).map fun t => (t, out)).state = ((takeLine d).state, out) := by
        cases takeLine d <;> rfl
      rw [hmap]
      intro hnext
      by_cases hpre : d.state = .pre
      · rcases takeLine_pre hpre with hpos | ⟨hst, hfin, hhead⟩
        · exact hpos
        · rcases hnext with hne | hf
          · exact absurd hst hne
          · show 0 < (takeLine d).state.header.size
            rw [hhead]
            exact h (.inr (hfin ▸ hf))
      · show 0 < (takeLine d).state.header.size
        rw [takeLine_size hpre]
        exact h (.inl hpre)
    · exact h
    · exact h

theorem expectedLen_pos {d : YencDecoder} (h : 0 < d.header.size) : 0 < d.expectedLen := by
  unfold expectedLen
  split
  · split
    · omega
    · exact h
  · exact h

/-- **What the decoder accepts**: the checksum is the one of the bytes, of which there is
at least one, and the file has a size. -/
theorem Part.Decoded.spec {p : Part} (h : p.Decoded) :
    p.crc = Crc32.crc32 p.data ∧ 0 < p.fileSize ∧ p.data ≠ [] := by
  obtain ⟨chunks, h⟩ := h
  have hobs := pushAll_observe (d := .new) rfl [] chunks
  simp only [Pushed.observe, Prod.mk.injEq] at hobs
  simp only [hobs.2.1, hobs.2.2] at h
  rw [push_eq (d := .new) rfl] at h
  have hhead : Headed (feed Yenc.byteStep (new.toByteState, []) chunks.flatten).2.state :=
    feed_invariant (P := Headed) (fun s b hs => hs.byteStep b)
      (fun hs => by rcases hs with hs | hs <;> simp [new, ByteState.new] at hs) _
  have hfin := feed_finished (s := (new.toByteState, [])) rfl chunks.flatten
  rcases hf : feed Yenc.byteStep (new.toByteState, []) chunks.flatten with ⟨n, r⟩
  rw [hf] at h hhead hfin
  cases r with
  | more t =>
    rcases hfin with ⟨u, hu, -⟩ | ⟨-, hno⟩
    · cases hu
    · simp only [takeResult_eq_none (d := new.absorb t.1 t.2) hno] at h
      cases h
  | fail e t =>
    rcases hfin with ⟨u, hu, -⟩ | ⟨-, hno⟩
    · cases hu
    · simp only [takeResult_eq_none (d := { new with toByteState := t.1 }) hno]
        at h
      cases h
  | done t =>
    obtain ⟨b, o⟩ := t
    rcases hfin with ⟨u, hu, hyes⟩ | ⟨hno, -⟩
    · obtain rfl := Step.done.inj hu
      have hyes' : (new.absorb b o).finished = true := hyes
      have hpos : 0 < b.header.size := hhead (.inr hyes)
      simp only [takeResult, hyes', if_true, articleReport] at h
      split_ifs at h with hcrcOk hlenOk
      obtain ⟨-, hdata, hcrc, hsize⟩ := Report.segment.inj h
      rw [← hdata, ← hcrc, ← hsize]
      refine ⟨rfl, hpos, ?_⟩
      rintro rfl
      -- the length promised is not zero
      have hlen : 0 < (new.absorb b []).expectedLen := expectedLen_pos hpos
      have hnone : (new.absorb b []).decodedLen = 0 := rfl
      simp [hnone, hlen.ne] at hlenOk
    · exact absurd rfl (hno _)

/-! ### The file on disk -/

/-- One output file. -/
structure OutFile where
  /-- The contents under the name `.part`. -/
  part : Option (List UInt8)
  /-- The contents under its own name. -/
  whole : Option (List UInt8)
  preallocated : Bool

/-- Fill the file up to the size declared, once. -/
def preallocate (preallocated : Bool) (fileSize : Nat) (c : List UInt8) : List UInt8 :=
  if preallocated = false ∧ 0 < fileSize ∧ c.length < fileSize then setLen fileSize c else c

def OutFile.writeSegment (d : OutFile) (p : Part) : OutFile :=
  { d with
    part := some (writeAt (preallocate d.preallocated p.fileSize (d.part.getD [])) p.offset p.data)
    preallocated := d.preallocated || decide (0 < p.fileSize) }

/-- Bring the file to its size and rename it; did that work? -/
def OutFile.finalize (d : OutFile) (fileSize : Nat) : Bool × OutFile :=
  match d.part with
  | none => (d.whole.isSome, d)
  | some c =>
    let c := if 0 < fileSize then setLen fileSize c else c
    if 0 < fileSize ∧ c.length ≠ fileSize then (false, { d with part := some c })
    else (true, { d with part := none, whole := some c })

/-! ### The checksum of the owner -/

def combineCrcs.go (expect : Nat) (acc : Option (BitVec 32)) :
    List (Nat × Nat × BitVec 32) → Option (BitVec 32)
  | [] => acc
  | (off, len, crc) :: l =>
    if off ≠ expect then none
    else combineCrcs.go (expect + len)
      (some (match acc with
        | none => crc
        | some prev => crc32Combine prev crc len)) l

/-- The checksum of a file, if its parts lie end to end. -/
def combineCrcs (sorted : List (Nat × Nat × BitVec 32)) : Option (BitVec 32) :=
  combineCrcs.go 0 none sorted

/-- Offset, length and checksum of a part that has been written. -/
def doneTriple (s : Segment) : Option (Nat × Nat × BitVec 32) :=
  match s.state with
  | .done offset len crc => some (offset, len, crc)
  | _ => none

/-- What the owner tells the writer as the checksum of the file. -/
def combinedCrc (f : FileEntry) : Option (BitVec 32) :=
  let segs := (f.segments.filterMap doneTriple).insertionSort (·.1 ≤ ·.1)
  if f.segments.all (·.state.isDone) then combineCrcs segs else none

/-- And as its size; 0 is unknown. -/
def finalizeSize (declared : Option Nat) : Nat := (declared.filter (0 < ·)).getD 0

/-! ### The assembly -/

/-- A file on disk and in the queue, with the size declared last. -/
structure Assembly where
  disk : OutFile
  file : FileEntry
  declared : Option Nat

/-- Book a part as written. -/
def markDone (p : Part) (s : Segment) : Segment :=
  if s.state.isDone then s else { s with state := .done p.offset (p.data.length % 2 ^ 32) p.crc }

def Assembly.write (a : Assembly) (w : Nat × Part) : Assembly where
  disk := a.disk.writeSegment w.2
  file := a.file.updateSegment w.1 (markDone w.2)
  declared := if 0 < w.2.fileSize then some w.2.fileSize else a.declared

/-- After a restart another task writes the file, and the size is one that the journal has. -/
inductive Assembly.Event
  | write (w : Nat × Part)
  | restart (size : Option Nat)

def Assembly.step (a : Assembly) : Event → Assembly
  | .write w => a.write w
  | .restart size => { a with
      disk := { a.disk with preallocated := false }
      declared := size.filter (0 < ·) }

/-- The owner has the file finalized, and the writer reports back. -/
def Assembly.finalize (a : Assembly) : Assembly :=
  let r := a.disk.finalize (finalizeSize a.declared)
  ⟨r.2, Owner.finalizedAs r.1 (combinedCrc a.file) a.file, none⟩

def assemble (disk : OutFile) (f : FileEntry) (events : List Assembly.Event) : Assembly :=
  (events.foldl Assembly.step ⟨disk, f, none⟩).finalize

/-- The part that is written. -/
def Assembly.Event.part : Event → Option (Nat × Part)
  | .write w => some w
  | .restart _ => none

def writesOf (events : List Assembly.Event) : List (Nat × Part) := events.filterMap (·.part)

/-- A file of which no part has been written, and the parts that are going to be. -/
structure Assembles (f : FileEntry) (writes : List (Nat × Part)) : Prop where
  numbers : (f.segments.map (·.number)).Nodup
  fresh : ∀ s ∈ f.segments, s.state.isDone = false
  crc32 : f.crc32 = none
  decoded : ∀ w ∈ writes, w.2.Decoded
  once : (writes.map (·.1)).Nodup
  own : ∀ w ∈ writes, w.1 ∈ f.segments.map (·.number)

/-- Every segment has been written. -/
def AllWritten (f : FileEntry) (writes : List (Nat × Part)) : Prop :=
  ∀ s ∈ f.segments, s.number ∈ writes.map (·.1)

/-- Where a part goes, and its bytes. -/
def Part.piece (p : Part) : Piece := (p.offset, p.data)

/-- What the owner knows of a part. -/
def Part.triple (p : Part) : Nat × Nat × BitVec 32 := (p.offset, p.data.length % 2 ^ 32, p.crc)

def byOffset (parts : List Part) : List Part := parts.insertionSort (·.offset ≤ ·.offset)

def parts (writes : List (Nat × Part)) : List Part := writes.map (·.2)

def bytesOf (writes : List (Nat × Part)) : List UInt8 :=
  joined ((byOffset (parts writes)).map Part.piece)

/-- By offset, each part starts where the one before it ends. -/
def Contiguous (writes : List (Nat × Part)) : Prop :=
  EndToEnd 0 ((byOffset (parts writes)).map Part.piece)

/-- The size that the last part declares, or the one that the journal has. -/
def Assembly.Event.size : Event → Option Nat
  | .write w => some w.2.fileSize
  | .restart size => size

def knownSize (events : List Assembly.Event) : Nat := (events.getLast?.bind (·.size)).getD 0

/-- The sizes up to which the tasks fill the file: each takes the one of its first part. -/
def fills : Bool → List Assembly.Event → List Nat
  | _, [] => []
  | true, .write _ :: events => fills true events
  | false, .write w :: events => w.2.fileSize :: fills true events
  | _, .restart _ :: events => fills false events

def OutFile.length (d : OutFile) : Nat := (d.part.getD []).length

/-- The file ends where its parts do. -/
def Fits (disk : OutFile) (events : List Assembly.Event) (total : Nat) : Prop :=
  if 0 < knownSize events then knownSize events = total
  else disk.length ≤ total ∧ ∀ n ∈ fills disk.preallocated events, n ≤ total

instance (disk : OutFile) (events : List Assembly.Event) (total : Nat) :
    Decidable (Fits disk events total) := by
  unfold Fits
  infer_instance

/-! ### What the writes do -/

variable {disk : OutFile} {f : FileEntry} {writes : List (Nat × Part)}
  {events : List Assembly.Event}

theorem writesOf_write (w : Nat × Part) : writesOf (.write w :: events) = w :: writesOf events := rfl

theorem writesOf_restart (size : Option Nat) :
    writesOf (.restart size :: events) = writesOf events := rfl

theorem foldl_step_declared (a : Assembly) (h : ∀ w ∈ writesOf events, 0 < w.2.fileSize) :
    (events.foldl Assembly.step a).declared =
      events.getLast?.elim a.declared fun e => e.size.filter (0 < ·) := by
  induction events using List.reverseRecOn with
  | nil => rfl
  | append_singleton events e =>
    rw [foldl_append, getLast?_concat]
    cases e with
    | restart size => rfl
    | write w =>
      have hpos := h w (by simp [writesOf, Assembly.Event.part])
      simp [Assembly.step, Assembly.write, Assembly.Event.size, Option.filter, hpos]

theorem getD_preallocate (b : Bool) (n : Nat) (c : List UInt8) (i : Nat) :
    (preallocate b n c).getD i 0 = c.getD i 0 := by
  unfold preallocate
  split
  next h =>
    rw [getD_setLen]
    split
    · rfl
    · exact (getD_eq_default _ _ (by omega)).symm
  next => rfl

def OutFile.byte (d : OutFile) (i : Nat) : UInt8 := (d.part.getD []).getD i 0

theorem foldl_step_byte (a : Assembly) :
    (events.foldl Assembly.step a).disk.byte =
      ((parts (writesOf events)).map Part.piece).foldl overlay a.disk.byte := by
  induction events generalizing a with
  | nil => rfl
  | cons e events ih =>
    cases e with
    | restart size => exact ih _
    | write w =>
      have hw : (a.write w).disk.byte = overlay a.disk.byte w.2.piece := by
        have hpre : (fun i => (preallocate a.disk.preallocated w.2.fileSize
            (a.disk.part.getD [])).getD i 0) = a.disk.byte := by
          funext i
          exact getD_preallocate ..
        rw [← hpre]
        exact writeAt_overlay _ w.2.piece
      rw [foldl_cons, Assembly.step, ih, hw]
      rfl

theorem length_preallocate (n : Nat) (c : List UInt8) :
    (preallocate false n c).length = max c.length n := by
  unfold preallocate
  split
  next h =>
    rw [length_setLen]
    omega
  next h =>
    have hle : ¬(0 < n ∧ c.length < n) := fun hn => h ⟨rfl, hn⟩
    omega

/-- What the file is filled up to stays with it, as long as nothing is cut. -/
theorem foldl_step_length (a : Assembly) (total : Nat)
    (h : ∀ w ∈ writesOf events, 0 < w.2.fileSize ∧ w.2.data ≠ []) :
    (events.foldl Assembly.step a).disk.length ≤ total ↔ a.disk.length ≤ total ∧
      (∀ w ∈ writesOf events, w.2.offset + w.2.data.length ≤ total) ∧
        ∀ n ∈ fills a.disk.preallocated events, n ≤ total := by
  induction events generalizing a with
  | nil => simp [writesOf, fills]
  | cons e events ih =>
    cases e with
    | restart size =>
      rw [foldl_cons, ih _ h]
      cases hpre : a.disk.preallocated <;> simp [Assembly.step, OutFile.length, fills, writesOf_restart]
    | write w =>
      rw [writesOf_write] at h ⊢
      obtain ⟨hpos, hne⟩ := h w mem_cons_self
      have hlength : (a.write w).disk.length =
          max (preallocate a.disk.preallocated w.2.fileSize (a.disk.part.getD [])).length
            (w.2.offset + w.2.data.length) := length_writeAt hne _ _
      have hpre : (a.write w).disk.preallocated = true := by
        simp [Assembly.write, OutFile.writeSegment, hpos]
      rw [foldl_cons, Assembly.step, ih _ fun v hv => h v (mem_cons_of_mem _ hv), hlength, hpre,
        forall_mem_cons]
      cases a.disk.preallocated with
      | true =>
        have hfill : preallocate true w.2.fileSize (a.disk.part.getD []) = a.disk.part.getD [] := rfl
        rw [hfill, max_le_iff, and_assoc, and_assoc]
        rfl
      | false =>
        rw [length_preallocate, max_le_iff, max_le_iff, fills, forall_mem_cons, OutFile.length]
        tauto

theorem foldl_step_part (a : Assembly) (h : writesOf events ≠ []) :
    ((events.foldl Assembly.step a).disk.part).isSome = true := by
  have hkeep : ∀ (events : List Assembly.Event) (a : Assembly), a.disk.part.isSome = true →
      ((events.foldl Assembly.step a).disk.part).isSome = true := by
    intro events
    induction events with
    | nil => exact fun _ h => h
    | cons e events ih =>
      intro a ha
      cases e with
      | restart size => exact ih _ ha
      | write w => exact ih _ rfl
  induction events generalizing a with
  | nil => exact absurd rfl h
  | cons e events ih =>
    cases e with
    | restart size => exact ih _ h
    | write w => exact hkeep events _ rfl

def partFor (writes : List (Nat × Part)) (s : Segment) : Option (Nat × Part) :=
  writes.find? (·.1 = s.number)

def marked (writes : List (Nat × Part)) (s : Segment) : Segment :=
  match partFor writes s with
  | some w => markDone w.2 s
  | none => s

theorem markDone_number (p : Part) (s : Segment) : (markDone p s).number = s.number := by
  unfold markDone
  split <;> rfl

theorem partFor_eq_none {s : Segment} (h : s.number ∉ writes.map (·.1)) : partFor writes s = none := by
  refine find?_eq_none.mpr fun w hw he => ?_
  rw [decide_eq_true_eq] at he
  exact h (he ▸ mem_map_of_mem hw)

theorem marked_cons {w : Nat × Part} (hw : w.1 ∉ writes.map (·.1)) (s : Segment) :
    marked writes (if s.number = w.1 then markDone w.2 s else s) = marked (w :: writes) s := by
  by_cases hs : s.number = w.1
  · have hnone : partFor writes (markDone w.2 s) = none :=
      partFor_eq_none (by rwa [markDone_number, hs])
    have hsome : partFor (w :: writes) s = some w := find?_cons_of_pos (by simp [hs])
    rw [if_pos hs, marked, hnone, marked, hsome]
  · have hnext : partFor (w :: writes) s = partFor writes s :=
      find?_cons_of_neg (by simpa using fun h => hs h.symm)
    rw [if_neg hs, marked, marked, hnext]

/-- **Each segment is booked with the part written for it.** -/
theorem foldl_step_segments (a : Assembly) (hn : (a.file.segments.map (·.number)).Nodup)
    (honce : ((writesOf events).map (·.1)).Nodup) :
    (events.foldl Assembly.step a).file =
      { a.file with segments := a.file.segments.map (marked (writesOf events)) } := by
  induction events generalizing a with
  | nil =>
    rw [show marked (writesOf []) = id from rfl, map_id]
    rfl
  | cons e events ih =>
    cases e with
    | restart size => exact ih _ hn honce
    | write w =>
      rw [writesOf_write] at honce ⊢
      obtain ⟨hw, hws⟩ := nodup_cons.mp honce
      have hstep : (a.write w).file = { a.file with
          segments := a.file.segments.map fun s => if s.number = w.1 then markDone w.2 s else s } :=
        congrArg (fun l => { a.file with segments := l }) (modifyFirst_eq_map hn)
      have hnums : (a.write w).file.segments.map (·.number) = a.file.segments.map (·.number) := by
        rw [hstep, map_map]
        refine map_congr_left fun s _ => ?_
        show (if s.number = w.1 then markDone w.2 s else s).number = s.number
        split
        · exact markDone_number _ s
        · rfl
      rw [foldl_cons, Assembly.step, ih _ (hnums ▸ hn) hws, hstep, map_map]
      have hmap : a.file.segments.map
            (marked (writesOf events) ∘ fun s => if s.number = w.1 then markDone w.2 s else s) =
          a.file.segments.map (marked (w :: writesOf events)) :=
        map_congr_left fun s _ => marked_cons hw s
      exact congrArg (fun l => { a.file with segments := l }) hmap

/-! ### The checksum of the parts -/

/-- A part with the checksum of its bytes, and short enough for its length to be kept. -/
def Part.Sound (p : Part) : Prop := p.crc = Crc32.crc32 p.data ∧ p.data.length < 2 ^ 32

theorem Part.Sound.triple_len {p : Part} (h : p.Sound) : p.data.length % 2 ^ 32 = p.data.length :=
  Nat.mod_eq_of_lt h.2

theorem combineCrcs_go_eq_some {l : List Part} (hl : ∀ p ∈ l, p.Sound) (pre : List UInt8)
    (expect : Nat) (c : BitVec 32) :
    combineCrcs.go expect (some (Crc32.crc32 pre)) (l.map Part.triple) = some c ↔
      EndToEnd expect (l.map Part.piece) ∧ c = Crc32.crc32 (pre ++ joined (l.map Part.piece)) := by
  induction l generalizing pre expect with
  | nil => simp [combineCrcs.go, EndToEnd, joined, eq_comm]
  | cons p l ih =>
    have hp := hl p mem_cons_self
    have hcombine : crc32Combine (Crc32.crc32 pre) p.crc p.data.length =
        Crc32.crc32 (pre ++ p.data) := by
      rw [hp.1]
      exact crc32Combine_append _ _ (lt_trans hp.2 (by decide))
    have hjoin : joined ((p :: l).map Part.piece) = p.data ++ joined (l.map Part.piece) :=
      flatMap_cons
    rw [map_cons, Part.triple, combineCrcs.go, hp.triple_len]
    by_cases hoff : p.offset = expect
    · rw [if_neg (not_not_intro hoff), hcombine, ih (fun q hq => hl q (mem_cons_of_mem _ hq)),
        hjoin, append_assoc]
      exact ⟨fun h => ⟨⟨hoff, h.1⟩, h.2⟩, fun h => ⟨h.1.2, h.2⟩⟩
    · rw [if_pos hoff]
      exact ⟨fun h => (nomatch h), fun h => absurd h.1.1 hoff⟩

/-- **The checksum is the one of the bytes of the parts, if they lie end to end.** -/
theorem combineCrcs_eq_some {l : List Part} (hl : ∀ p ∈ l, p.Sound) (c : BitVec 32) :
    combineCrcs (l.map Part.triple) = some c ↔
      l ≠ [] ∧ EndToEnd 0 (l.map Part.piece) ∧ c = Crc32.crc32 (joined (l.map Part.piece)) := by
  cases l with
  | nil => simp [combineCrcs, combineCrcs.go]
  | cons p l =>
    have hp := hl p mem_cons_self
    have hgo := combineCrcs_go_eq_some (fun q hq => hl q (mem_cons_of_mem _ hq)) p.data
      (0 + p.data.length) c
    rw [← hp.1] at hgo
    rw [combineCrcs, map_cons, Part.triple, combineCrcs.go, hp.triple_len]
    by_cases hoff : p.offset = 0
    · rw [if_neg (not_not_intro hoff)]
      refine hgo.trans ?_
      exact ⟨fun h => ⟨cons_ne_nil _ _, ⟨hoff, h.1⟩, h.2⟩, fun h => ⟨h.2.1.2, h.2.2⟩⟩
    · rw [if_pos hoff]
      exact ⟨fun h => (nomatch h), fun h => absurd h.2.1.1 hoff⟩

/-! ### Sorted by offset -/

theorem byOffset_perm (l : List Part) : (byOffset l).Perm l := perm_insertionSort _ l

theorem byOffset_sorted (l : List Part) : (byOffset l).Pairwise fun p q => p.offset ≤ q.offset := by
  have : Std.Total fun p q : Part => p.offset ≤ q.offset := ⟨fun p q => Nat.le_total _ _⟩
  have : IsTrans Part fun p q => p.offset ≤ q.offset := ⟨fun _ _ _ => Nat.le_trans⟩
  exact pairwise_insertionSort _ l

theorem byOffset_eq_of_endToEnd {l m : List Part} (hm : m.Perm l) (hne : ∀ p ∈ l, p.data ≠ [])
    (h : EndToEnd 0 ((byOffset l).map Part.piece)) : byOffset m = byOffset l := by
  have hstrict : (byOffset l).Pairwise fun p q => p.offset < q.offset := by
    have hpair := pairwise_map.mp h.pairwise
    refine hpair.imp_of_mem fun {p q} hp _ hle => ?_
    have hpos := length_pos_iff.mpr (hne p ((byOffset_perm l).mem_iff.mp hp))
    have hle' : p.offset + p.data.length ≤ q.offset := hle
    omega
  have hoffsets : ((byOffset l).map (·.offset)).Nodup :=
    pairwise_map.mpr (hstrict.imp Nat.ne_of_lt)
  have hperm : (byOffset m).Perm (byOffset l) :=
    (byOffset_perm m).trans (hm.trans (byOffset_perm l).symm)
  refine List.Perm.eq_of_pairwise ?_ (byOffset_sorted m) (byOffset_sorted l) hperm
  intro p q hp hq hpq hqp
  exact inj_on_of_nodup_map hoffsets (hperm.mem_iff.mp hp) hq (Nat.le_antisymm hpq hqp)

/-! ### What is recorded -/

def inSegmentOrder (f : FileEntry) (writes : List (Nat × Part)) : List (Nat × Part) :=
  f.segments.filterMap (partFor writes)

theorem partFor_eq_some {s : Segment} {w : Nat × Part} (h : partFor writes s = some w) :
    w ∈ writes ∧ w.1 = s.number :=
  ⟨mem_of_find?_eq_some h, by simpa using find?_some h⟩

theorem partFor_isSome (s : Segment) :
    (partFor writes s).isSome = true ↔ s.number ∈ writes.map (·.1) := by
  constructor
  · intro h
    obtain ⟨w, hw⟩ := Option.isSome_iff_exists.mp h
    obtain ⟨hmem, hnum⟩ := partFor_eq_some hw
    exact hnum ▸ mem_map_of_mem hmem
  · intro h
    rw [← Option.ne_none_iff_isSome]
    intro hnone
    obtain ⟨w, hw, hnum⟩ := mem_map.mp h
    have hno := find?_eq_none.mp hnone w hw
    exact hno (by simpa using hnum)

theorem Assembles.inSegmentOrder_perm (h : Assembles f writes) :
    (inSegmentOrder f writes).Perm writes := by
  have hnodup : (inSegmentOrder f writes).Nodup := by
    refine pairwise_filterMap.mpr ((pairwise_map.mp h.numbers).imp ?_)
    rintro s t hne w hs v ht rfl
    exact hne ((partFor_eq_some hs).2.symm.trans (partFor_eq_some ht).2)
  refine (perm_ext_iff_of_nodup hnodup (List.Nodup.of_map _ h.once)).mpr fun w => ?_
  constructor
  · intro hw
    obtain ⟨s, -, hs⟩ := mem_filterMap.mp hw
    exact (partFor_eq_some hs).1
  · intro hw
    obtain ⟨s, hs, hnum⟩ := mem_map.mp (h.own w hw)
    have hin : s.number ∈ writes.map (·.1) := mem_map.mpr ⟨w, hw, hnum.symm⟩
    obtain ⟨v, hv⟩ := Option.isSome_iff_exists.mp ((partFor_isSome s).mpr hin)
    obtain ⟨hmem, hvnum⟩ := partFor_eq_some hv
    have heq : v = w := inj_on_of_nodup_map h.once hmem hw (hvnum.trans hnum)
    exact mem_filterMap.mpr ⟨s, hs, heq ▸ hv⟩

theorem doneTriple_marked {s : Segment} (h : s.state.isDone = false) :
    doneTriple (marked writes s) = (partFor writes s).map (·.2.triple) := by
  unfold marked
  cases partFor writes s with
  | none =>
    unfold doneTriple
    cases hs : s.state with
    | done => rw [hs] at h; nomatch h
    | _ => rfl
  | some w => simp [markDone, h, doneTriple, Part.triple]

theorem isDone_marked {s : Segment} (h : s.state.isDone = false) :
    (marked writes s).state.isDone = true ↔ s.number ∈ writes.map (·.1) := by
  rw [← partFor_isSome]
  unfold marked
  cases partFor writes s with
  | none => simp [h]
  | some w =>
    have hmark : (markDone w.2 s).state = .done w.2.offset (w.2.data.length % 2 ^ 32) w.2.crc := by
      simp [markDone, h]
    show (markDone w.2 s).state.isDone = true ↔ _
    rw [hmark]
    exact ⟨fun _ => rfl, fun _ => rfl⟩

theorem Assembles.combinedCrc (h : Assembles f writes)
    (hshort : ∀ w ∈ writes, w.2.data.length < 2 ^ 32) (c : BitVec 32) :
    combinedCrc { f with segments := f.segments.map (marked writes) } = some c ↔
      AllWritten f writes ∧ writes ≠ [] ∧ Contiguous writes ∧ c = Crc32.crc32 (bytesOf writes) := by
  have hperm : (parts (inSegmentOrder f writes)).Perm (parts writes) :=
    h.inSegmentOrder_perm.map _
  have hspec : ∀ p ∈ parts writes, p.Sound ∧ p.data ≠ [] := by
    intro p hp
    obtain ⟨w, hw, rfl⟩ := mem_map.mp hp
    obtain ⟨hcrc, -, hne⟩ := (h.decoded w hw).spec
    exact ⟨⟨hcrc, hshort w hw⟩, hne⟩
  have htriples : (f.segments.map (marked writes)).filterMap doneTriple =
      (parts (inSegmentOrder f writes)).map Part.triple := by
    rw [filterMap_map, parts, map_map, inSegmentOrder, map_filterMap]
    exact filterMap_congr fun s hs => doneTriple_marked (h.fresh s hs)
  have hsort : ((parts (inSegmentOrder f writes)).map Part.triple).insertionSort (·.1 ≤ ·.1) =
      (byOffset (parts (inSegmentOrder f writes))).map Part.triple :=
    (map_insertionSort (fun p q : Part => p.offset ≤ q.offset)
      (fun p q : Nat × Nat × BitVec 32 => p.1 ≤ q.1) Part.triple _ fun _ _ _ _ => Iff.rfl).symm
  have hall : (f.segments.map (marked writes)).all (·.state.isDone) = true ↔ AllWritten f writes := by
    rw [all_map, all_eq_true]
    exact forall₂_congr fun s hs => isDone_marked (h.fresh s hs)
  have hsound : ∀ p ∈ byOffset (parts (inSegmentOrder f writes)), p.Sound := fun p hp =>
    (hspec p (hperm.mem_iff.mp ((byOffset_perm _).mem_iff.mp hp))).1
  simp only [Engine.combinedCrc, htriples, hsort]
  by_cases hw : AllWritten f writes
  · rw [if_pos (hall.mpr hw), combineCrcs_eq_some hsound]
    have hnil : byOffset (parts (inSegmentOrder f writes)) ≠ [] ↔ writes ≠ [] := by
      have hlen := ((byOffset_perm _).trans hperm).length_eq
      rw [← length_pos_iff, ← length_pos_iff, hlen, parts, length_map]
    constructor
    · rintro ⟨hne, hend, hc⟩
      have heq := byOffset_eq_of_endToEnd hperm.symm
        (fun p hp => (hspec p (hperm.mem_iff.mp hp)).2) hend
      refine ⟨hw, hnil.mp hne, ?_, ?_⟩
      · rwa [Contiguous, heq]
      · rwa [bytesOf, heq]
    · rintro ⟨-, hne, hcont, hc⟩
      have heq := byOffset_eq_of_endToEnd hperm (fun p hp => (hspec p hp).2) hcont
      refine ⟨hnil.mpr hne, ?_, ?_⟩
      · rwa [heq]
      · rwa [heq]
  · rw [if_neg fun ha => hw (hall.mp ha)]
    exact ⟨fun hc => (nomatch hc), fun hc => absurd hc.1 hw⟩

/-! ### The file and its checksum -/

theorem Assembles.declared (h : Assembles f (writesOf events)) :
    finalizeSize (events.foldl Assembly.step ⟨disk, f, none⟩).declared = knownSize events := by
  have hpos : ∀ w ∈ writesOf events, 0 < w.2.fileSize := fun w hw => (h.decoded w hw).spec.2.1
  rw [foldl_step_declared _ hpos, finalizeSize, knownSize]
  cases events.getLast? with
  | none => rfl
  | some e => cases hsize : e.size with
    | none => simp [hsize]
    | some n =>
      by_cases hn : 0 < n
      · simp [hsize, Option.filter, hn]
      · obtain rfl : n = 0 := by omega
        simp [hsize, Option.filter]

theorem Assembles.finalized (h : Assembles f (writesOf events)) (disk : OutFile)
    (hne : writesOf events ≠ []) :
    ∃ c, (fun i => c.getD i 0) =
        ((parts (writesOf events)).map Part.piece).foldl overlay disk.byte ∧
      (∀ total, c.length ≤ total ↔ disk.length ≤ total ∧
        (∀ w ∈ writesOf events, w.2.offset + w.2.data.length ≤ total) ∧
          ∀ n ∈ fills disk.preallocated events, n ≤ total) ∧
      (assemble disk f events).disk.whole =
        some (if 0 < knownSize events then setLen (knownSize events) c else c) ∧
      (assemble disk f events).file.crc32 =
        Engine.combinedCrc { f with segments := f.segments.map (marked (writesOf events)) } := by
  obtain ⟨c, hc⟩ := Option.isSome_iff_exists.mp (foldl_step_part ⟨disk, f, none⟩ hne)
  have hfin : (events.foldl Assembly.step ⟨disk, f, none⟩).disk.finalize (knownSize events) =
      (true, { (events.foldl Assembly.step ⟨disk, f, none⟩).disk with
        part := none
        whole := some (if 0 < knownSize events then setLen (knownSize events) c else c) }) := by
    by_cases hpos : 0 < knownSize events <;> simp [OutFile.finalize, hc, hpos]
  refine ⟨c, ?_, fun total => ?_, ?_, ?_⟩
  · rw [← foldl_step_byte ⟨disk, f, none⟩]
    funext i
    rw [OutFile.byte, hc]
    rfl
  · have hlength := foldl_step_length ⟨disk, f, none⟩ total fun w hw => (h.decoded w hw).spec.2
    rwa [OutFile.length, hc] at hlength
  · simp only [assemble, Assembly.finalize, h.declared, hfin]
  · simp only [assemble, Assembly.finalize, h.declared, hfin]
    rw [foldl_step_segments ⟨disk, f, none⟩ h.numbers h.once]
    rfl

theorem Assembles.crc32_eq_some (h : Assembles f (writesOf events))
    (hshort : ∀ w ∈ writesOf events, w.2.data.length < 2 ^ 32) (c : BitVec 32) :
    (assemble disk f events).file.crc32 = some c ↔ AllWritten f (writesOf events) ∧
      writesOf events ≠ [] ∧ Contiguous (writesOf events) ∧
        c = Crc32.crc32 (bytesOf (writesOf events)) := by
  by_cases hne : writesOf events = []
  · have hnone : (assemble disk f events).file.crc32 = none := by
      have hcomb : Engine.combinedCrc { f with
          segments := f.segments.map (marked (writesOf events)) } = none :=
        Option.eq_none_iff_forall_ne_some.mpr fun c hc => ((h.combinedCrc hshort c).mp hc).2.1 hne
      have hfile := foldl_step_segments ⟨disk, f, none⟩ h.numbers h.once
      rw [assemble, Assembly.finalize, hfile]
      show (if _ = true then Engine.combinedCrc _ else f.crc32) = none
      rw [hcomb, h.crc32, ite_self]
    rw [hnone]
    exact ⟨fun hc => (nomatch hc), fun hc => absurd hne hc.2.1⟩
  · obtain ⟨-, -, -, -, hcrc⟩ := h.finalized disk hne
    rw [hcrc]
    exact h.combinedCrc hshort c

/-- Where the parts lie end to end, the file is as long as they are, or longer. -/
theorem fits_iff (hcont : Contiguous (writesOf events)) {c : List UInt8}
    (hc : ∀ total, c.length ≤ total ↔ disk.length ≤ total ∧
      (∀ w ∈ writesOf events, w.2.offset + w.2.data.length ≤ total) ∧
        ∀ n ∈ fills disk.preallocated events, n ≤ total) :
    (if 0 < knownSize events then setLen (knownSize events) c else c).length =
        (bytesOf (writesOf events)).length ↔
      Fits disk events (bytesOf (writesOf events)).length := by
  unfold Fits
  split
  · rw [length_setLen]
  have hends : ∀ w ∈ writesOf events,
      w.2.offset + w.2.data.length ≤ (bytesOf (writesOf events)).length := fun w hw => by
    have hmem : w.2.piece ∈ (byOffset (parts (writesOf events))).map Part.piece :=
      mem_map_of_mem ((byOffset_perm _).mem_iff.mpr (mem_map_of_mem hw))
    have hend := hcont.end_le hmem
    rwa [Nat.zero_add] at hend
  have hle : (bytesOf (writesOf events)).length ≤ c.length := by
    -- a part covers the last byte
    by_contra hlt
    obtain ⟨p, hp, k, hk, hpos, -⟩ := hcont.exists_covers (i := c.length) (by
      show c.length < (bytesOf (writesOf events)).length
      omega)
    obtain ⟨q, hq, rfl⟩ := mem_map.mp hp
    obtain ⟨w, hw, rfl⟩ := mem_map.mp ((byOffset_perm _).mem_iff.mp hq)
    have hend := ((hc c.length).mp le_rfl).2.1 w hw
    have hpos' : 0 + c.length = w.2.offset + k := hpos
    have hk' : k < w.2.data.length := hk
    omega
  rw [← and_iff_right (b := ∀ n ∈ fills _ _, _) hends, ← hc]
  omega

/-- **The file is its parts, if they end where it does.** -/
theorem Assembles.whole_eq (h : Assembles f (writesOf events)) (hne : writesOf events ≠ [])
    (hcont : Contiguous (writesOf events)) :
    (assemble disk f events).disk.whole = some (bytesOf (writesOf events)) ↔
      Fits disk events (bytesOf (writesOf events)).length := by
  obtain ⟨c, hbytes, hlength, hwhole, -⟩ := h.finalized disk hne
  rw [hwhole, Option.some.injEq, ← fits_iff hcont hlength]
  refine ⟨fun heq => congrArg List.length heq, fun hlen => ext_getD hlen fun i hi => ?_⟩
  have hperm : ((parts (writesOf events)).map Part.piece).Perm
      ((byOffset (parts (writesOf events))).map Part.piece) := (byOffset_perm _).symm.map _
  have hin : i < (bytesOf (writesOf events)).length := hlen ▸ hi
  have hbyte : (if 0 < knownSize events then setLen (knownSize events) c else c).getD i 0 =
      c.getD i 0 := by
    split
    next hpos =>
      rw [if_pos hpos, length_setLen] at hi
      rw [getD_setLen, if_pos hi]
    next => rfl
  calc (if 0 < knownSize events then setLen (knownSize events) c else c).getD i 0
      = c.getD i 0 := hbyte
    _ = ((parts (writesOf events)).map Part.piece).foldl overlay disk.byte i := congrFun hbytes i
    _ = (bytesOf (writesOf events)).getD i 0 := foldl_overlay_of_perm hperm hcont _ hin

def oneSegment : FileEntry :=
  { id := 1, filename := text "x", isPar2 := false, paused := false, date := none
    segments := [⟨text "a@b", 1, 100, .pending⟩], crc32 := none, finalized := false }

def twoSegments : FileEntry :=
  { oneSegment with segments := oneSegment.segments ++ [⟨text "c@d", 2, 100, .pending⟩] }

def emptyDisk : OutFile := ⟨none, none, false⟩

end Nzbd.Engine
