import Mathlib.Logic.Equiv.List
import Mathlib.Tactic.DeriveEncodable
import Nzbd.History.Local

/-!
# A format for the logs

`Table` lists lines with what they say.  `Table.format` writes and reads these lines as
the table has them, and every other entry and tombstone as a number.
-/

namespace Nzbd.History

open List

open State (lf)

instance encodableChar : Encodable Char := Encodable.ofLeftInverse Char.toNat Char.ofNat Char.ofNat_toNat

deriving instance Encodable for PostStage
deriving instance Encodable for StageSpan
deriving instance Encodable for Payload
deriving instance Encodable for HistoryEntry

/-! ### Rows of a table -/

section Rows

variable {α : Type*} [Encodable α] (rows : List (α × List UInt8)) (mark : UInt8)

def plain (a : α) : List UInt8 := mark :: (Numeral.dec (Encodable.encode a) ++ [0x3b])

def readPlain : List UInt8 → Option α
  | [] => none
  | b :: s => if b = mark then (Numeral.takeDec s).bind fun x => Encodable.decode x.1 else none

def writeRow [DecidableEq α] (a : α) : List UInt8 :=
  ((rows.find? fun x => x.1 = a).map (·.2)).getD (plain mark a)

def readRow (line : List UInt8) : Option α :=
  ((rows.find? fun x => x.2 = line).map (·.1)).or (readPlain mark line)

variable {rows mark}

theorem readPlain_plain (a : α) : readPlain mark (plain mark a) = some a := by
  rw [plain, readPlain, if_pos rfl, Numeral.takeDec_dec _ (by decide), Option.bind_some,
    Encodable.encodek]

variable {line : List UInt8}

theorem readPlain_of_head (h : line.head? ≠ some mark) :
    (readPlain mark line : Option α) = none := by
  cases line with
  | nil => rfl
  | cons b s => exact if_neg fun hb => h (congrArg some hb)

theorem lf_notMem_plain (hmark : mark ≠ lf) (a : α) : lf ∉ plain mark a := by
  intro h
  rcases mem_cons.mp h with h | h
  · exact hmark h.symm
  · rcases mem_append.mp h with h | h
    · exact absurd (Numeral.isDigit_of_mem_dec _ h) (by decide)
    · exact absurd (mem_singleton.mp h) (by decide)

theorem writeRow_cases [DecidableEq α] (a : α) :
    (a, writeRow rows mark a) ∈ rows ∨ writeRow rows mark a = plain mark a := by
  rw [writeRow]
  cases hfind : rows.find? (fun x => x.1 = a) with
  | none => exact .inr rfl
  | some x =>
    have hx : x.1 = a := by simpa using find?_some hfind
    exact .inl (hx ▸ mem_of_find?_eq_some hfind)

theorem readRow_of_mem (hnodup : (rows.map (·.2)).Nodup) {x : α × List UInt8} (hx : x ∈ rows) :
    readRow rows mark x.2 = some x.1 := by
  rw [readRow]
  cases hfind : rows.find? (fun y => y.2 = x.2) with
  | none => simpa using find?_eq_none.mp hfind x hx
  | some y =>
    have hy : y.2 = x.2 := by simpa using find?_some hfind
    rw [inj_on_of_nodup_map hnodup (mem_of_find?_eq_some hfind) hx hy]
    rfl

theorem readRow_of_notMem (h : line ∉ rows.map (·.2)) :
    readRow rows mark line = readPlain mark line := by
  have hfind : rows.find? (fun x => x.2 = line) = none := by
    refine find?_eq_none.mpr fun x hx hline => h (mem_map.mpr ⟨x, hx, ?_⟩)
    simpa using hline
  rw [readRow, hfind]
  rfl

theorem readRow_writeRow [DecidableEq α] (hnodup : (rows.map (·.2)).Nodup)
    (hhead : ∀ line ∈ rows.map (·.2), line.head? ≠ some mark) (a : α) :
    readRow rows mark (writeRow rows mark a) = some a := by
  rcases @writeRow_cases _ _ rows mark _ a with h | h
  · exact readRow_of_mem hnodup h
  · rw [h, readRow_of_notMem, readPlain_plain]
    exact fun hmem => hhead _ hmem rfl

end Rows

/-! ### Tables -/

def entryMark : UInt8 := 0x65

def tombstoneMark : UInt8 := 0x74

structure Table where
  entries : List (HistoryEntry × List UInt8)
  tombstones : List (Key × List UInt8)
  nodup : (entries.map (·.2) ++ tombstones.map (·.2)).Nodup
  lines : ∀ line ∈ entries.map (·.2) ++ tombstones.map (·.2),
    line ≠ [] ∧ lf ∉ line ∧ line.head? ≠ some entryMark ∧ line.head? ≠ some tombstoneMark

namespace Table

variable (t : Table)

theorem lf_notMem (h : line ∈ t.entries.map (·.2) ++ t.tombstones.map (·.2)) :
    lf ∉ line := (t.lines line h).2.1

theorem head_ne_entryMark
    (h : line ∈ t.entries.map (·.2) ++ t.tombstones.map (·.2)) : line.head? ≠ some entryMark :=
  (t.lines line h).2.2.1

theorem head_ne_tombstoneMark
    (h : line ∈ t.entries.map (·.2) ++ t.tombstones.map (·.2)) : line.head? ≠ some tombstoneMark :=
  (t.lines line h).2.2.2

theorem readRow_entries_nil : readRow t.entries entryMark [] = none :=
  readRow_of_notMem fun h => (t.lines [] (mem_append_left _ h)).1 rfl

theorem readRow_tombstones_nil : readRow t.tombstones tombstoneMark [] = none :=
  readRow_of_notMem fun h => (t.lines [] (mem_append_right _ h)).1 rfl

theorem lf_notMem_entries (e : HistoryEntry) : lf ∉ writeRow t.entries entryMark e := by
  rcases @writeRow_cases _ _ t.entries entryMark _ e with h | h
  · exact t.lf_notMem (mem_append_left _ (mem_map_of_mem h))
  · exact h ▸ lf_notMem_plain (by decide) e

theorem lf_notMem_tombstones (k : Key) : lf ∉ writeRow t.tombstones tombstoneMark k := by
  rcases @writeRow_cases _ _ t.tombstones tombstoneMark _ k with h | h
  · exact t.lf_notMem (mem_append_right _ (mem_map_of_mem h))
  · exact h ▸ lf_notMem_plain (by decide) k

theorem readRow_entries (e : HistoryEntry) :
    readRow t.tombstones tombstoneMark (writeRow t.entries entryMark e) = none := by
  have hline : writeRow t.entries entryMark e ∉ t.tombstones.map (·.2) ∧
      (writeRow t.entries entryMark e).head? ≠ some tombstoneMark := by
    rcases @writeRow_cases _ _ t.entries entryMark _ e with h | h
    · have hmem := mem_map_of_mem (f := (·.2)) h
      refine ⟨fun h' => ?_, t.head_ne_tombstoneMark (mem_append_left _ hmem)⟩
      exact (nodup_append.mp t.nodup).2.2 _ hmem _ h' rfl
    · rw [h]
      refine ⟨fun h' => t.head_ne_entryMark (mem_append_right _ h') rfl, ?_⟩
      exact fun h' => absurd (Option.some.inj h') (by decide)
  rw [readRow_of_notMem hline.1, readPlain_of_head hline.2]

/-- **The format of a table.** -/
def format : LogFormat where
  probe line := (readRow t.tombstones tombstoneMark line).isSome
  tombstone line := readRow t.tombstones tombstoneMark line
  entry line := if (readRow t.tombstones tombstoneMark line).isSome then none
    else readRow t.entries entryMark line
  entryLine := writeRow t.entries entryMark
  tombstoneLine := writeRow t.tombstones tombstoneMark
  coherent := by
    intro line e hp he
    have hp : (readRow t.tombstones tombstoneMark line).isSome = true := hp
    dsimp only at he
    rw [if_pos hp] at he
    nomatch he
  lf_notMem_entryLine := t.lf_notMem_entries
  probe_entryLine e := by rw [t.readRow_entries]; rfl
  tombstone_entryLine := t.readRow_entries
  entry_entryLine e := by
    rw [t.readRow_entries, if_neg (by simp)]
    refine readRow_writeRow (List.nodup_append.mp t.nodup).1 (fun line hline => ?_) e
    exact t.head_ne_entryMark (List.mem_append_left _ hline)
  lf_notMem_tombstoneLine := t.lf_notMem_tombstones
  probe_tombstoneLine k := by
    rw [readRow_writeRow (List.nodup_append.mp t.nodup).2.1
      (fun line hline => t.head_ne_tombstoneMark (List.mem_append_right _ hline)) k]
    rfl
  tombstone_tombstoneLine k := readRow_writeRow (List.nodup_append.mp t.nodup).2.1
    (fun line hline => t.head_ne_tombstoneMark (List.mem_append_right _ hline)) k
  tombstone_nil := t.readRow_tombstones_nil
  entry_nil := by
    rw [t.readRow_tombstones_nil, t.readRow_entries_nil]
    rfl

end Table

/-! ### Three entries and a tombstone -/

def finishedLine : List UInt8 := Utf8.ascii
  "\x7b\"job\":7,\"name\":\"a\",\"status\":\"SUCCESS\",\"size\":3,\"completed_at_unix\":100\x7d"

def tiedLine : List UInt8 := Utf8.ascii
  "\x7b\"job\":8,\"name\":\"a\",\"status\":\"SUCCESS\",\"size\":3,\"completed_at_unix\":100\x7d"

def laterLine : List UInt8 := Utf8.ascii
  "\x7b\"job\":8,\"name\":\"a\",\"status\":\"SUCCESS\",\"size\":3,\"completed_at_unix\":200\x7d"

def buriedLine : List UInt8 :=
  Utf8.ascii "\x7b\"op\":\"tombstone\",\"job\":7,\"completed_at_unix\":100\x7d"

def finishedEntry : HistoryEntry where
  job := 7
  completedAtUnix := 100
  payload := ⟨['a'], none, none, "SUCCESS".toList, 3, 1000, [], [], 0, []⟩
  hidden := false
  removedAtUnix := none
  pickedUpBy := none
  record := none

def tiedEntry : HistoryEntry := { finishedEntry with job := 8 }

/-- The other job, completed later. -/
def laterEntry : HistoryEntry := { tiedEntry with completedAtUnix := 200 }

def episodeTable : Table where
  entries := [(finishedEntry, finishedLine), (tiedEntry, tiedLine), (laterEntry, laterLine)]
  tombstones := [((7, 100), buriedLine)]
  nodup := by decide
  lines := by decide

end Nzbd.History
