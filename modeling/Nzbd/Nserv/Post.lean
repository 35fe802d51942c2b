import Nzbd.Engine.Writer
import Nzbd.Lib.Chunks
import Nzbd.Nserv.Wire

/-!
# A file from post to disk

`build_post` cuts a file into articles of one size, and `reply` is how the server hands
one out.  Behind a connection every article is told from its neighbours
(`runLeases_reply`), also when the connection is dropped in one of them (`runLeases_half`);
and the parts make the file again, in whatever order they are written (`assemble_post`).
-/

namespace Nzbd.Nserv

open List ByteMachine Bytes Chunks Utf8 Nzbd.Yenc Nzbd.Nntp NntpConnection Nzbd.Engine

def totalParts (len segmentSize : Nat) : UInt32 :=
  .ofNat (max ((len + segmentSize - 1) / segmentSize) 1)

/-- A file to be posted, within what the decoder takes. -/
structure GeneratedFile where
  name : List UInt8
  data : List UInt8
  segmentSize : Nat
  name_line : lf ∉ name
  data_ne : data ≠ []
  data_lt : data.length < 2 ^ 64
  size_pos : 0 < segmentSize
  size_lt : segmentSize < 2 ^ 32
  parts_lt : (data.length + segmentSize - 1) / segmentSize < 2 ^ 32
  line_le : ∀ i < (totalParts data.length segmentSize).toNat,
    (beginLine name (.ofNat data.length) (.ofNat (i + 1))
      (totalParts data.length segmentSize)).length ≤ maxLine

namespace GeneratedFile

variable (f : GeneratedFile)

def total : UInt32 := totalParts f.data.length f.segmentSize

/-- The data of part `i + 1`. -/
def slice (i : Nat) : List UInt8 := (f.data.drop (i * f.segmentSize)).take f.segmentSize

/-- Part `i + 1` with the given data. -/
def wire (i : Nat) (data : List UInt8) (crc : Option (BitVec 32)) : List UInt8 :=
  let start := i * f.segmentSize
  yencWire f.name data (.ofNat f.data.length) (.ofNat (i + 1)) f.total (.ofNat (start + 1))
    (.ofNat (min (start + f.segmentSize) f.data.length)) crc

/-- One byte is flipped, and the checksum kept. -/
def corruptWire (i : Nat) : List UInt8 :=
  f.wire i ((f.slice i).modifyHead (· ^^^ 0xFF)) (some (Crc32.crc32 (f.slice i)))

/-- What the decoder is to make of part `i + 1`. -/
def part (i : Nat) : Part :=
  ⟨i * f.segmentSize, f.slice i, Crc32.crc32 (f.slice i), f.data.length⟩

/-- What is posted, by the numbers of the articles. -/
def articles : List (Nat × List UInt8) :=
  (List.range f.total.toNat).map fun i => (i + 1, f.wire i (f.slice i) none)

/-- The parts by their numbers. -/
def numbered : List (Nat × Part) := (List.range f.total.toNat).map fun i => (i + 1, f.part i)

theorem slices : (List.range f.total.toNat).map f.slice = chunks f.segmentSize f.data := by
  have hpos := length_pos_iff.mpr f.data_ne
  have hone : 0 < (f.data.length + f.segmentSize - 1) / f.segmentSize :=
    Nat.div_pos (by omega) f.size_pos
  rw [total, totalParts, Nat.max_eq_left hone, UInt32.toNat_ofNat_of_lt' f.parts_lt]
  rfl

variable {i : Nat}

theorem slice_length_pos (hi : i < f.total.toNat) : 0 < (f.slice i).length :=
  length_pos_iff.mpr (ne_nil_of_mem f.size_pos (f.slices ▸ mem_map_of_mem (mem_range.mpr hi)))

theorem length_slice (i : Nat) :
    (f.slice i).length = min f.segmentSize (f.data.length - i * f.segmentSize) := by
  rw [slice, length_take, length_drop]

/-- **What the decoder makes of an article**, whatever follows it. -/
theorem feed_wire (hi : i < f.total.toNat) {data : List UInt8}
    (hlen : data.length = (f.slice i).length) (crc : Option (BitVec 32)) (rest : List UInt8) :
    ∃ x, feed byteStep (.new, []) (f.wire i data crc ++ rest) =
        ((f.wire i data crc).length, .done x) ∧
      articleReport (YencDecoder.new.absorb x.1 x.2).takeResult x.2 =
        if crc.getD (Crc32.crc32 data) = Crc32.crc32 data then
          .segment (i * f.segmentSize) data (Crc32.crc32 data) f.data.length
        else .segmentFailed .crcError := by
  have hpos := f.slice_length_pos hi
  rw [length_slice] at hpos hlen
  have hdata := f.data_lt
  have hsize : (UInt64.ofNat f.data.length).toNat = f.data.length := UInt64.toNat_ofNat_of_lt' hdata
  have hfirst : (UInt64.ofNat (i * f.segmentSize + 1)).toNat = i * f.segmentSize + 1 :=
    UInt64.toNat_ofNat_of_lt' (Nat.lt_of_le_of_lt (by omega) hdata)
  have hlast : (UInt64.ofNat (min (i * f.segmentSize + f.segmentSize) f.data.length)).toNat =
      i * f.segmentSize + data.length :=
    (UInt64.toNat_ofNat_of_lt' (Nat.lt_of_le_of_lt (by omega) hdata)).trans (by omega)
  have hne : UInt64.ofNat f.data.length ≠ 0 := fun h => by
    rw [h] at hsize
    exact f.data_ne (length_eq_zero_iff.mp hsize.symm)
  have hle : i * f.segmentSize + 1 ≤ i * f.segmentSize + data.length := by omega
  have hrange : i * f.segmentSize + data.length - (i * f.segmentSize + 1) + 1 = data.length := by
    omega
  refine ⟨_, feed_yencWire f.name_line hne (.ofNat (i + 1)) f.total
    (hfirst.ge.trans' (Nat.le_add_left ..)) (hfirst.trans_le (hle.trans_eq hlast.symm))
    (by omega) (f.line_le i hi) rest crc, ?_⟩
  simp only [articleReport, YencDecoder.takeResult, YencDecoder.absorb, YencDecoder.expectedLen,
    afterWire, afterEnd, afterPart, ByteState.enterBody, wireHeader, hfirst, hlast, hsize, hrange, hle]
  simp [YencDecoder.new]
  rfl

theorem report_wire (hi : i < f.total.toNat) {cs : List (List UInt8)}
    (hcs : cs.flatten = f.wire i (f.slice i) none) :
    let r := YencDecoder.new.pushAll [] cs
    articleReport r.dec.takeResult r.out =
      .segment (f.part i).offset (f.part i).data (f.part i).crc (f.part i).fileSize := by
  obtain ⟨x, hx, hreport⟩ := f.feed_wire hi rfl none []
  rw [append_nil] at hx
  have hobs := YencDecoder.pushAll_observe (d := .new) rfl [] cs
  rw [hcs, YencDecoder.push_eq rfl, show YencDecoder.new.toByteState = .new from rfl, hx] at hobs
  simp only [Pushed.observe, Prod.mk.injEq] at hobs
  simp only [hobs.2.1, hobs.2.2]
  exact hreport.trans (if_pos rfl)

theorem part_decoded (hi : i < f.total.toNat) : (f.part i).Decoded :=
  ⟨[f.wire i (f.slice i) none], f.report_wire hi flatten_singleton⟩

/-- **A flipped byte is noticed.** -/
theorem crc32_flip (hi : i < f.total.toNat) :
    Crc32.crc32 (f.slice i) ≠ Crc32.crc32 ((f.slice i).modifyHead (· ^^^ 0xFF)) := by
  intro hcrc
  cases hs : f.slice i with
  | nil => exact (f.slice_length_pos hi).ne' (by rw [hs]; rfl)
  | cons b bs =>
    rw [hs] at hcrc
    have hflip : b ^^^ b = b ^^^ (b ^^^ 0xFF) := congrArg _ (Crc32.crc32_cons_injective bs hcrc)
    rw [← UInt8.xor_assoc, UInt8.xor_self, UInt8.zero_xor] at hflip
    exact absurd hflip (by decide)

theorem endToEnd_part {i k : Nat} (h : i + k = f.total.toNat) :
    EndToEnd (i * f.segmentSize) ((range' i k).map (Part.piece ∘ f.part)) := by
  induction k generalizing i with
  | zero => trivial
  | succ k ih =>
    refine ⟨rfl, ?_⟩
    cases k with
    | zero => trivial
    | succ k =>
      -- a part with one behind it is full
      have hnext := f.slice_length_pos (i := i + 1) (by omega)
      have hfull : (f.slice i).length = f.segmentSize := by
        rw [length_slice, Nat.succ_mul] at *
        omega
      show EndToEnd (i * f.segmentSize + (f.slice i).length) _
      rw [hfull, ← Nat.succ_mul]
      exact ih (by omega)

theorem byOffset_numbered :
    byOffset (parts f.numbered) = (List.range f.total.toNat).map f.part := by
  rw [parts, numbered, map_map]
  refine Pairwise.insertionSort_eq (pairwise_map.mpr (pairwise_lt_range.imp fun h => ?_))
  exact Nat.mul_le_mul_right _ (Nat.le_of_lt h)

/-- What the decoder makes of an article that comes in chunks: the part to be written. -/
def received (a : Nat × List (List UInt8)) : Option Assembly.Event :=
  let r := YencDecoder.new.pushAll [] a.2
  match articleReport r.dec.takeResult r.out with
  | .segment offset data crc fileSize => some (.write (a.1, ⟨offset, data, crc, fileSize⟩))
  | .segmentFailed _ => none

variable {f} {e : FileEntry} {writes : List (Nat × Part)} {arrivals : List (Nat × List (List UInt8))}

theorem received_perm (h : (arrivals.map fun a => (a.1, a.2.flatten)).Perm f.articles) :
    (writesOf (arrivals.filterMap received)).Perm f.numbered ∧
      ∀ e ∈ arrivals.filterMap received, e.size = some f.data.length := by
  have heach : ∀ a ∈ arrivals, received a = some (.write (a.1, f.part (a.1 - 1))) := by
    intro a ha
    obtain ⟨i, hi, heq⟩ := mem_map.mp (h.mem_iff.mp (mem_map_of_mem ha))
    obtain ⟨hnumber, hwire⟩ := Prod.mk.inj heq
    rw [received, f.report_wire (mem_range.mp hi) hwire.symm, ← hnumber, Nat.add_sub_cancel]
  constructor
  · have hwrites : writesOf (arrivals.filterMap received) =
        (arrivals.map fun a => (a.1, a.2.flatten)).map fun x => (x.1, f.part (x.1 - 1)) := by
      rw [writesOf, filterMap_filterMap, map_map, ← filterMap_eq_map]
      refine filterMap_congr fun a ha => ?_
      rw [heach a ha]
      rfl
    rw [hwrites]
    refine (h.map _).trans (.of_eq ?_)
    rw [articles, numbered, map_map]
    rfl
  · intro e he
    obtain ⟨a, ha, hea⟩ := mem_filterMap.mp he
    rw [heach a ha] at hea
    rw [← Option.some.inj hea]
    rfl

/-- The parts are those of the post, and they make its bytes. -/
theorem bytesOf_numbered (hwrites : writes.Perm f.numbered) :
    Contiguous writes ∧ bytesOf writes = f.data := by
  have hend : EndToEnd 0 ((byOffset (parts f.numbered)).map Part.piece) := by
    have hall := f.endToEnd_part (Nat.zero_add _)
    rwa [Nat.zero_mul, ← range_eq_range', ← map_map, ← byOffset_numbered] at hall
  have hsort : byOffset (parts writes) = byOffset (parts f.numbered) := by
    refine byOffset_eq_of_endToEnd (hwrites.map _) (fun p hp => ?_) hend
    obtain ⟨w, hw, rfl⟩ := mem_map.mp hp
    obtain ⟨i, hi, rfl⟩ := mem_map.mp hw
    exact (f.part_decoded (mem_range.mp hi)).spec.2.2
  refine ⟨by rwa [Contiguous, hsort], ?_⟩
  rw [bytesOf, hsort, byOffset_numbered, joined, flatMap_def, map_map, map_map]
  exact (congrArg flatten f.slices).trans (flatten_chunks f.size_pos _)

/-- **A file is downloaded as it was posted**, in whatever order and chunks its articles come. -/
theorem assemble_post (hnumbers : e.segments.map (·.number) = f.articles.map (·.1))
    (hfresh : ∀ s ∈ e.segments, s.state.isDone = false) (hcrc : e.crc32 = none)
    (harrivals : (arrivals.map fun a => (a.1, a.2.flatten)).Perm f.articles) (disk : OutFile) :
    (Engine.assemble disk e (arrivals.filterMap received)).disk.whole = some f.data ∧
      (Engine.assemble disk e (arrivals.filterMap received)).file.crc32 =
        some (Crc32.crc32 f.data) := by
  obtain ⟨hwrites, hsizes⟩ := received_perm harrivals
  have hkeys : f.articles.map (·.1) = f.numbered.map (·.1) := by
    rw [articles, numbered, map_map, map_map]
    rfl
  rw [hkeys] at hnumbers
  have hnodup : (f.numbered.map (·.1)).Nodup := by
    rw [numbered, map_map]
    exact nodup_range.map (add_left_injective 1)
  have hasm : Assembles e (writesOf (arrivals.filterMap received)) := by
    refine ⟨hnumbers ▸ hnodup, hfresh, hcrc, fun w hw => ?_, (hwrites.map _).nodup_iff.mpr hnodup,
      fun w hw => hnumbers ▸ mem_map_of_mem (hwrites.mem_iff.mp hw)⟩
    obtain ⟨i, hi, rfl⟩ := mem_map.mp (hwrites.mem_iff.mp hw)
    exact f.part_decoded (mem_range.mp hi)
  obtain ⟨hcont, hbytes⟩ := bytesOf_numbered hwrites
  have hne : writesOf (arrivals.filterMap received) ≠ [] := by
    intro hnil
    rw [hnil] at hbytes
    exact f.data_ne hbytes.symm
  have hknown : knownSize (arrivals.filterMap received) = f.data.length := by
    have hevents : arrivals.filterMap received ≠ [] := fun hnil => hne (by rw [hnil]; rfl)
    rw [knownSize, getLast?_eq_some_getLast hevents, Option.bind_some, hsizes _ (getLast_mem hevents),
      Option.getD_some]
  have hfits : Engine.Fits disk (arrivals.filterMap received) f.data.length := by
    rw [Engine.Fits, hknown, if_pos (length_pos_iff.mpr f.data_ne)]
  refine ⟨hbytes ▸ (hasm.whole_eq hne hcont).mpr (hbytes ▸ hfits),
    (hasm.crc32_eq_some (fun w hw => ?_) _).mpr ⟨fun s hs => ?_, hne, hcont, by rw [hbytes]⟩⟩
  · obtain ⟨i, -, rfl⟩ := mem_map.mp (hwrites.mem_iff.mp hw)
    exact Nat.lt_of_le_of_lt (length_take_le _ _) f.size_lt
  · rw [(hwrites.map _).mem_iff, ← hnumbers]
    exact mem_map_of_mem hs

/-- A post of two letters. -/
def letters : GeneratedFile where
  name := Utf8.ascii "x"
  data := [0x61, 0x62]
  segmentSize := 1
  name_line := by decide
  data_ne := by decide
  data_lt := by decide
  size_pos := by decide
  size_lt := by decide
  parts_lt := by decide
  line_le := by decide

/-- The second article comes first, and in two chunks. -/
def secondInTwo : List (Nat × List (List UInt8)) :=
  let wire (i : Nat) := letters.wire i (letters.slice i) none
  [(2, [(wire 1).take 50, (wire 1).drop 50]), (1, [wire 0])]

theorem assemble_post_letters :
    (Engine.assemble emptyDisk twoSegments (secondInTwo.filterMap received)).disk.whole =
        some [0x61, 0x62] ∧
      (Engine.assemble emptyDisk twoSegments (secondInTwo.filterMap received)).file.crc32 =
        some (Crc32.crc32 [0x61, 0x62]) :=
  assemble_post (f := letters) rfl (by decide) rfl (by
    have harticles : letters.articles =
        [(1, letters.wire 0 (letters.slice 0) none), (2, letters.wire 1 (letters.slice 1) none)] := rfl
    have hflat : (secondInTwo.map fun a => (a.1, a.2.flatten)) =
        [(2, letters.wire 1 (letters.slice 1) none), (1, letters.wire 0 (letters.slice 0) none)] := by
      simp [secondInTwo]
    rw [harticles, hflat]
    exact .swap _ _ _) emptyDisk

end GeneratedFile

inductive Behavior
  | serve
  | notFound
  /-- The copy with the flipped byte is sent. -/
  | corruptCrc

/-- A part of a post under its message id. -/
structure StoredArticle where
  file : GeneratedFile
  part : Fin file.total.toNat
  id : List UInt8
  id_ascii : ∀ b ∈ id, b ≠ lf ∧ b < 0x80
  behavior : Behavior

namespace StoredArticle

variable (a : StoredArticle)

def status : List UInt8 := ascii "222 0 <" ++ a.id ++ ascii "> body\r"

/-- What the server sends for a `BODY`. -/
def reply : List UInt8 :=
  match a.behavior with
  | .notFound => ascii "430 no such article\r\n"
  | .serve => a.status ++ lf :: a.file.wire a.part (a.file.slice a.part) none
  | .corruptCrc => a.status ++ lf :: a.file.corruptWire a.part

/-- What comes of it if the connection is dropped in the middle. -/
def half : List UInt8 :=
  let wire := a.file.wire a.part (a.file.slice a.part) none
  a.status ++ lf :: wire.take (wire.length / 2)

/-- What the lease is to be told. -/
def report : Report :=
  match a.behavior with
  | .notFound => .segmentFailed .articleMissing
  | .serve =>
    let p := a.file.part a.part
    .segment p.offset p.data p.crc p.fileSize
  | .corruptCrc => .segmentFailed .crcError

variable {a} {conn : NntpConnection} {rest : List UInt8}

theorem handleOne_status {body : List UInt8} (h : bytes conn.chunks = a.status ++ lf :: body) :
    ∃ cs, bytes cs = body ∧ handleOne conn = streamBody ⟨cs, conn.eof⟩ := by
  have hall : ∀ b ∈ a.status, b ≠ lf ∧ b < 0x80 := by
    simp only [status, forall_mem_append]
    exact ⟨⟨by decide +kernel, a.id_ascii⟩, by decide +kernel⟩
  obtain ⟨cs, hread, hcs⟩ := readUntil_line conn.eof (fun hlf => (hall lf hlf).1 rfl) h
  have hutf := fromUtf8_of_ascii (forall_mem_append.mpr
    ⟨fun b hb => (hall b hb).2, (by decide +kernel : ∀ b ∈ [lf], b < 0x80)⟩)
  have hstrip : stripCrlf (a.status ++ [lf]) = ascii "222 0 <" ++ a.id ++ ascii "> body" := by
    simp [stripCrlf, status, ascii, cr, lf]
  refine ⟨cs, hcs, ?_⟩
  rw [handleOne, readResponse, hread]
  simp only [hutf, Response.parse, hstrip]
  rw [if_neg (by simp)]
  rfl

theorem handleOne_found {wire : List UInt8} {x : Scan}
    (hx : feed byteStep (.new, []) (wire ++ rest) = (wire.length, .done x))
    (h : bytes conn.chunks = a.status ++ lf :: wire ++ rest) :
    ∃ conn', bytes conn'.chunks = rest ∧ handleOne conn =
      .ok (articleReport (YencDecoder.new.absorb x.1 x.2).takeResult x.2, conn') := by
  obtain ⟨cs, hcs, hone⟩ := handleOne_status (h.trans (append_assoc ..))
  change bytes cs = wire ++ rest at hcs
  rw [← hcs] at hx
  obtain ⟨left, hs, hleft⟩ := @stream_of_done conn.eof .new rfl [] cs _ _ hx
  refine ⟨⟨left, conn.eof⟩, by rw [hleft, hcs, drop_left], ?_⟩
  rw [hone, streamBody, hs]
  rfl

theorem handleOne_half (h : bytes conn.chunks = a.half) : ∃ e, handleOne conn = .error e := by
  obtain ⟨cs, hcs, hone⟩ := handleOne_status h
  obtain ⟨x, hx, -⟩ := a.file.feed_wire a.part.isLt rfl none []
  rw [append_nil] at hx
  obtain ⟨init, -, -, -, -, hpos, -⟩ := feed_stopped_last hx rfl
  obtain ⟨y, hmore⟩ := feed_take_more (.inl (by
    rw [hx]
    exact Nat.div_lt_self (by omega) one_lt_two))
  rw [← hcs] at hmore
  rw [hone, streamBody]
  cases hs : stream conn.eof .new [] cs with
  | error e => exact ⟨e, rfl⟩
  | ok p =>
    rcases stream_ok rfl hs with ⟨n, z, hn, -⟩ | ⟨n, e, z, -, -, hn, -⟩
    · cases hmore.symm.trans hn
    · cases hmore.symm.trans hn

theorem handleOne_reply (h : bytes conn.chunks = a.reply ++ rest) :
    ∃ conn', bytes conn'.chunks = rest ∧ handleOne conn = .ok (a.report, conn') := by
  rw [reply] at h
  rw [report]
  cases hb : a.behavior with
  | serve =>
    rw [hb] at h
    obtain ⟨x, hx, hreport⟩ := a.file.feed_wire a.part.isLt rfl none rest
    rw [Option.getD_none, if_pos rfl] at hreport
    exact hreport ▸ handleOne_found hx h
  | corruptCrc =>
    rw [hb] at h
    obtain ⟨x, hx, hreport⟩ := a.file.feed_wire a.part.isLt length_modifyHead (some _) rest
    rw [Option.getD_some, if_neg (a.file.crc32_flip a.part.isLt)] at hreport
    exact hreport ▸ handleOne_found hx h
  | notFound =>
    rw [hb] at h
    obtain ⟨cs, hread, hcs⟩ :=
      @readUntil_line conn.eof (ascii "430 no such article\r") rest (by decide) _ h
    refine ⟨{ conn with chunks := cs }, hcs, ?_⟩
    rw [handleOne, readResponse, hread]
    rfl

theorem readAnswers_append (batch : List (SegRef × StoredArticle)) (leases : List SegRef)
    (h : bytes conn.chunks = (batch.flatMap fun b => b.2.reply) ++ rest) :
    ∃ conn', bytes conn'.chunks = rest ∧ readAnswers conn (batch.map (·.1) ++ leases) =
      ((batch.map fun b => (b.1, b.2.report)) ++ (readAnswers conn' leases).1,
        (readAnswers conn' leases).2) := by
  induction batch generalizing conn with
  | nil => exact ⟨conn, h, rfl⟩
  | cons b bs ih =>
    rw [flatMap_cons, append_assoc] at h
    obtain ⟨conn₁, h₁, hone⟩ := b.2.handleOne_reply h
    obtain ⟨conn', h', hrest⟩ := ih h₁
    refine ⟨conn', h', ?_⟩
    rw [map_cons, cons_append, readAnswers, hone]
    simp only [hrest]
    rfl

/-- **A pipelined batch is answered article by article**, in whatever chunks the replies
come. -/
theorem runLeases_reply (batch : List (SegRef × StoredArticle))
    (h : bytes conn.chunks = (batch.flatMap fun b => b.2.reply) ++ rest) :
    ∃ conn', bytes conn'.chunks = rest ∧
      runLeases true conn (batch.map (·.1)) =
        (batch.map fun b => (b.1, b.2.report), some conn') := by
  obtain ⟨conn', h', hread⟩ := readAnswers_append batch [] h
  exact ⟨conn', h', by simpa [runLeases, readAnswers] using hread⟩

/-- **A connection that is dropped** in an article fails it and what is behind it, and
nothing else. -/
theorem runLeases_half (batch : List (SegRef × StoredArticle)) (r : SegRef)
    (leases : List SegRef) (h : bytes conn.chunks = (batch.flatMap fun b => b.2.reply) ++ a.half) :
    runLeases true conn (batch.map (·.1) ++ r :: leases) =
      ((batch.map fun b => (b.1, b.2.report)) ++
        (r :: leases).map (·, .segmentFailed .connectionFailed), none) := by
  obtain ⟨conn', h', hread⟩ := readAnswers_append batch (r :: leases) h
  obtain ⟨e, he⟩ := handleOne_half h'
  rw [runLeases, if_pos rfl, hread, readAnswers, he]

def letterArticle (b : Behavior) : StoredArticle :=
  ⟨.letters, ⟨0, by decide⟩, ascii "x", by decide +kernel, b⟩

def letterBatch : List (SegRef × StoredArticle) :=
  [(⟨1, 1, 1⟩, letterArticle .corruptCrc), (⟨1, 1, 2⟩, letterArticle .notFound),
    (⟨1, 1, 3⟩, letterArticle .serve)]

theorem runLeases_reply_letter :
    ∃ conn', bytes conn'.chunks = [] ∧ runLeases true
      ⟨[⟨letterBatch.flatMap fun b => b.2.reply, by decide⟩], true⟩ (letterBatch.map (·.1)) =
        (letterBatch.map fun b => (b.1, b.2.report), some conn') :=
  runLeases_reply letterBatch rfl

/-- The article behind the batch is dropped, and one more lease is behind it. -/
theorem runLeases_half_letter :
    runLeases true ⟨[⟨letterBatch.flatMap fun b => b.2.reply, by decide⟩,
        ⟨(letterArticle .serve).half, by simp [half]⟩], true⟩
      (letterBatch.map (·.1) ++ [⟨1, 2, 1⟩, ⟨1, 2, 2⟩]) =
      ((letterBatch.map fun b => (b.1, b.2.report)) ++
        [(⟨1, 2, 1⟩, .segmentFailed .connectionFailed),
          (⟨1, 2, 2⟩, .segmentFailed .connectionFailed)], none) :=
  runLeases_half (a := letterArticle .serve) letterBatch ⟨1, 2, 1⟩ [⟨1, 2, 2⟩] (by simp [bytes])

end StoredArticle
end Nzbd.Nserv
