import Mathlib.Data.Char
import Mathlib.Data.List.Lex
import Mathlib.Data.List.Sort
import Nzbd.Engine.Naming
import Nzbd.Lib.Moves

/-!
# Renaming a download

An obfuscated download gets its names back in three passes over the job directory.
The first gives recovery files their extension (`restorePlan`), the second gives every
file the name that the recovery set has for its first 16 KiB (`parPlan`), and the
third gives archives theirs (`rarPlan`).  A pass goes through the files as they stand
when it begins, and moves one if nothing is where it is to go.

A name of the recovery set is taken as a path, so it may lead out of the directory
(`locate`).  And a file may be moved twice, once by its name in the set and once by
what it looks like; then the list of all renames, looked up by the path at which the
file has been downloaded, tells where it was in between (`evidence`).  `renamesHarmlessly_iff`
says that these two, and a packet that is longer than memory, are all that can go
wrong.

No symbolic links are in the directory, and `refuses` is what else the system has
against a rename.
-/

namespace Nzbd.Post

open Option

open Utf8 (ascii fromUtf8Lossy)
open Moving

abbrev Bytes := List UInt8

/-! ### Recovery files -/

def par2Magic : Bytes := ascii "PAR2" ++ 0 :: ascii "PKT"

def packetMain : Bytes := ascii "PAR 2.0" ++ 0 :: (ascii "Main" ++ [0, 0, 0, 0])

def packetFileDesc : Bytes := ascii "PAR 2.0" ++ 0 :: ascii "FileDesc"

def fromLeBytes (bs : Bytes) : Nat := bs.foldr (fun b n => b.toNat + 256 * n) 0

/-- One source file; `name` is whatever the packet says. -/
structure FileDesc where
  id : Bytes
  name : Text
  md5_16k : Bytes

structure Scan where
  sliceSize : Nat
  descs : List FileDesc

/-- One packet; a second description of a file is left out. -/
def Scan.packet (out : Scan) (ptype body : Bytes) : Scan :=
  if ptype = packetMain ∧ 12 ≤ body.length then
    { out with sliceSize := fromLeBytes (body.take 8) }
  else if ptype = packetFileDesc ∧ 56 ≤ body.length then
    let id := body.take 16
    if out.descs.any (·.id = id) then out
    else
      { out with
        descs := out.descs ++
          [{ id := id
             name := trimEndMatches (· = '\x00') (fromUtf8Lossy (body.drop 56))
             md5_16k := (body.drop 32).take 16 }] }
  else out

/-- The packets from `pos` on.  A length that leaves the address space stops the
process. -/
def scanFrom : Nat → Nat → Bytes → Scan → Option Scan
  | 0, _, _, out => some out
  | fuel + 1, pos, bytes, out =>
    if bytes.length < 64 then some out
    else if bytes.take 8 ≠ par2Magic then scanFrom fuel (pos + 4) (bytes.drop 4) out
    else
      let len := fromLeBytes ((bytes.drop 8).take 8)
      if len < 64 then some out
      else if 2 ^ 64 ≤ pos + len then none
      else if bytes.length < len then some out
      else
        scanFrom fuel (pos + len) (bytes.drop len)
          (out.packet ((bytes.drop 48).take 16) ((bytes.take len).drop 64))

def scan (bytes : Bytes) : Option Scan := scanFrom bytes.length 0 bytes ⟨0, []⟩

/-- A later file's description of the same file replaces the earlier one. -/
def insertDesc (descs : List FileDesc) (d : FileDesc) : List FileDesc :=
  if descs.any (·.id = d.id) then descs.map fun e => if e.id = d.id then d else e
  else descs ++ [d]

/-! ### File names -/

/-- The stem and the extension: a dot in front is no separator. -/
def splitName (n : Text) : Text × Option Text :=
  let ext := afterLast (· = '.') n
  let stem := n.take (n.length - ext.length - 1)
  if '.' ∈ n ∧ stem ≠ [] then (stem, some ext) else (n, none)

def fileStem (n : Text) : Text := (splitName n).1

def extIs (n ext : Text) : Bool := (splitName n).2.any (eqIgnoreAsciiCase · ext)

/-- To lower case in full.  No other character than the Kelvin sign is outside ASCII
and has a lower case that is looked for here. -/
def toLowercase (s : Text) : Text := s.map fun c => if c = '\u212A' then 'k' else c.toLower

/-! ### The directory -/

inductive Place
  | inside (n : Text)
  | outside (p : List Text)
  deriving DecidableEq

/-- Where a place is, for a job directory `dir`. -/
def Place.path (dir : List Text) : Place → List Text
  | inside n => dir ++ [n]
  | outside p => p

/-- The files in the job directory, and everything else.  No rename makes or removes
a directory. -/
structure Disk where
  dir : List Text
  isDir : List Text → Bool
  files : List (Text × Bytes)
  away : List Text → Option Bytes
  refuses : Text → Place → Bool
  nodup : (files.map (·.1)).Nodup
  named : [] ∉ files.map (·.1)

namespace Disk

def lookup (d : Disk) (n : Text) : Option Bytes := (d.files.find? (·.1 = n)).map (·.2)

def read (d : Disk) : Place → Option Bytes
  | .inside n => d.lookup n
  | .outside p => d.away p

/-- Something is there; without a name it is the directory itself. -/
def taken (d : Disk) (pl : Place) : Bool :=
  (d.read pl).isSome || d.isDir (pl.path d.dir) || pl = .inside []

/-- The parts of a path, without those that do not lead anywhere. -/
def components (s : Text) : List Text :=
  (split (· = '/') s).filter fun c => c ≠ [] ∧ c ≠ text "."

/-- From one directory to the next; the last part need not be there. -/
def walk (d : Disk) : List Text → List Text → Option (List Text)
  | p, [] => some p
  | p, c :: cs =>
    if !d.isDir p then none
    else if c = text ".." then walk d p.dropLast cs
    else walk d (p ++ [c]) cs

/-- A path must be one of a file, and `NUL` is in none. -/
def isFilePath (s : Text) : Bool :=
  let last := afterLast (· = '/') s
  last ≠ [] && last ≠ text "." && last ≠ text ".." && '\x00' ∉ s

/-- Where a name of the recovery set leads, joined to the directory. -/
def locate (d : Disk) (s : Text) : Option Place :=
  if !isFilePath s then none
  else
    (d.walk (if startsWith s (text "/") then [] else d.dir) (components s)).map fun p =>
      if p.dropLast = d.dir ∧ p ≠ [] then .inside (p.getLastD []) else .outside p

variable {n : Text}

theorem lookup_eq_none {d : Disk} : d.lookup n = none ↔ n ∉ d.files.map (·.1) := by
  rw [lookup, map_eq_none_iff, List.find?_eq_none, List.mem_map]
  constructor
  · rintro h ⟨e, he, heq⟩
    exact h e he (by simpa using heq)
  · exact fun h e he heq => h ⟨e, he, by simpa using heq⟩

theorem read_of_not_taken {d : Disk} {pl : Place} (h : d.taken pl = false) : d.read pl = none := by
  simp only [taken, Bool.or_eq_false_iff, isSome_eq_false_iff,
    isNone_iff_eq_none] at h
  exact h.1.1

theorem ne_of_not_taken {d : Disk} {pl : Place} (h : d.taken pl = false) : pl ≠ .inside [] := by
  rintro rfl
  simp [taken] at h

theorem map_rename (files : List (Text × Bytes)) (s m : Text) :
    (files.map fun e => (if e.1 = s then m else e.1, e.2)).map (·.1) =
      (files.map (·.1)).map fun n => if n = s then m else n := by
  rw [List.map_map, List.map_map]
  rfl

/-- The file of one name goes to a place that is free. -/
def move (d : Disk) (s : Text) (pl : Place) (h : d.taken pl = false) : Disk :=
  match pl, h with
  | .inside m, h =>
    { d with
      files := d.files.map fun e => (if e.1 = s then m else e.1, e.2)
      nodup := by
        have hm : m ∉ d.files.map (·.1) := lookup_eq_none.mp (read_of_not_taken h)
        rw [map_rename]
        refine d.nodup.map_on fun a ha b hb heq => ?_
        split_ifs at heq with has hbs hbs
        · rw [has, hbs]
        · exact absurd (heq ▸ hb) hm
        · exact absurd (heq ▸ ha) hm
        · exact heq
      named := by
        rw [map_rename]
        intro hmem
        obtain ⟨n, hn, heq⟩ := List.mem_map.mp hmem
        split_ifs at heq
        · exact ne_of_not_taken h (by rw [heq])
        · exact d.named (heq ▸ hn) }
  | .outside p, _ =>
    { d with
      files := d.files.filter (·.1 ≠ s)
      away := fun q => if q = p then d.lookup s else d.away q
      nodup := d.nodup.sublist (List.filter_sublist.map _)
      named := fun hmem => d.named ((List.filter_sublist.map _).subset hmem) }

/-- `safe_rename`, and the rename if it has been made. -/
def safeRename (d : Disk) (m : Text × Place) : Disk × List (Text × Place) :=
  if h : d.taken m.2 = false then
    if (d.lookup m.1).isNone || d.refuses m.1 m.2 then (d, []) else (d.move m.1 m.2 h, [m])
  else (d, [])

/-- A pass, with the renames that have been made before. -/
def run (plan : List (Text × Place)) (st : Disk × List (Text × Place)) :
    Disk × List (Text × Place) :=
  plan.foldl (fun st m => ((st.1.safeRename m).1, st.2 ++ (st.1.safeRename m).2)) st

/-- The files, by name. -/
def filesOf (d : Disk) : List (Text × Bytes) := d.files.insertionSort fun a b => a.1 ≤ b.1

end Disk

/-! ### The first pass -/

def restorePlan (d : Disk) : List (Text × Place) :=
  d.filesOf.filterMap fun e =>
    if !extIs e.1 (text "par2") && e.2.take 8 = par2Magic then
      some (e.1, .inside (fileStem e.1 ++ text ".par2"))
    else none

/-! ### The second pass -/

structure Par2Set where
  sliceSize : Nat
  files : List FileDesc

/-- All files with the extension, or that reading one of them stops the process. -/
def loadFiles : List Bytes → Par2Set → Option Par2Set
  | [], set => some set
  | bytes :: rest, set =>
    match scan bytes with
    | none => none
    | some out =>
      loadFiles rest
        { sliceSize := if 0 < out.sliceSize then out.sliceSize else set.sliceSize
          files := out.descs.foldl insertDesc set.files }

/-- `load_dir`: the recovery set, if there is one. -/
def loadDir (d : Disk) : Option (Option Par2Set) :=
  (loadFiles ((d.filesOf.filter fun e => extIs e.1 (text "par2")).map (·.2)) ⟨0, []⟩).map fun set =>
    if set.files = [] ∨ set.sliceSize = 0 then none else some set

variable (md5 : Bytes → Bytes)

def md5_16k (bytes : Bytes) : Option Bytes :=
  if bytes.take 16384 = [] then none else some (md5 (bytes.take 16384))

/-- The name for a hash; the last one wins. -/
def wanted (set : Par2Set) (hash : Bytes) : Option Text :=
  (set.files.reverse.find? (·.md5_16k = hash)).map (·.name)

/-- The place for a file, by what is in it. -/
def trueName (set : Par2Set) (d : Disk) (bytes : Bytes) : Option Place :=
  ((md5_16k md5 bytes).bind (wanted set)).bind d.locate

def parPlan (set : Par2Set) (d : Disk) : List (Text × Place) :=
  d.filesOf.filterMap fun e =>
    if extIs e.1 (text "par2") || set.files.any (·.name = e.1) then none
    else (trueName md5 set d e.2).map fun pl => (e.1, pl)

/-- `par_rename`, unless it stops the process. -/
def parRename (d : Disk) : Option (Disk × List (Text × Place)) :=
  let st := Disk.run (restorePlan d) (d, [])
  (loadDir st.1).map fun
    | none => st
    | some set => Disk.run (parPlan md5 set st.1) st

/-! ### The third pass -/

def rarMagic : Bytes := ascii "Rar!" ++ [0x1a, 0x07]

def sevenZipMagic : Bytes := [0x37, 0x7a, 0xbc, 0xaf, 0x27, 0x1c]

def zipMagic : Bytes := ascii "PK" ++ [0x03, 0x04]

/-- A number in groups of seven bits, of 64 bits in all, and what is behind it. -/
def vint : Nat → Nat → Nat → Bytes → Option (Nat × Bytes)
  | 0, _, _, _ => none
  | _ + 1, _, _, [] => none
  | fuel + 1, i, v, b :: rest =>
    let v := v ||| (b.toNat % 128 * 2 ^ (7 * i)) % 2 ^ 64
    if b.toNat < 128 then some (v, rest) else vint fuel (i + 1) v rest

def rar5VolumeNumber (data : Bytes) : Option Nat :=
  if data.length < 8 ∨ data.take 7 ≠ rarMagic ++ [0x01] then none
  else do
    let (_, rest) ← vint 10 0 0 (data.drop 12)
    let (htype, rest) ← vint 10 0 0 rest
    if htype ≠ 1 then none
    let (hflags, rest) ← vint 10 0 0 rest
    let rest ← if hflags % 2 = 1 then (vint 10 0 0 rest).map (·.2) else some rest
    let (arcflags, rest) ← vint 10 0 0 rest
    if arcflags / 2 % 2 = 1 then (vint 10 0 0 rest).map (·.1)
    else if arcflags % 2 = 1 then some 0
    else none

/-- An extension of a volume that has its number already. -/
def splitVolumeExt : Text → Bool
  | [a, b, c] => (a.isDigit || a.isAlpha) && b.isDigit && c.isDigit
  | _ => false

def known : List Text := ["rar", "7z", "zip", "par2", "nzb", "sfv", "nfo", "srr"].map text

/-- The name says what it is. -/
def isKnown (n : Text) : Bool :=
  let ext := toLowercase ((splitName n).2.getD [])
  ext ∈ known || splitVolumeExt ext

def single (e : Text × Bytes) : Option (Text × Place) :=
  if isKnown e.1 || rarMagic.isPrefixOf e.2 then none
  else if sevenZipMagic.isPrefixOf e.2 then some (e.1, .inside (fileStem e.1 ++ text ".7z"))
  else if zipMagic.isPrefixOf e.2 then some (e.1, .inside (fileStem e.1 ++ text ".zip"))
  else none

def hiddenRar (e : Text × Bytes) : Option (Text × Option Nat) :=
  if !isKnown e.1 && rarMagic.isPrefixOf e.2 then some (e.1, rar5VolumeNumber (e.2.take 32))
  else none

/-- Two digits at least. -/
def showPart (n : Nat) : Text := if n < 10 then '0' :: showNat n else showNat n

/-- By their numbers, or as they stand in the directory. -/
def ordered (rars : List (Text × Option Nat)) : List Text :=
  (if rars.all (·.2.isSome) then rars.insertionSort fun a b => a.2.getD 0 ≤ b.2.getD 0
    else rars).map (·.1)

def volumes : List (Text × Option Nat) → List (Text × Place)
  | [] => []
  | [r] => [(r.1, .inside (fileStem r.1 ++ text ".rar"))]
  | r :: rars =>
    (ordered (r :: rars)).zipIdx.map fun e =>
      (e.1, .inside (fileStem r.1 ++ (text ".part" ++ showPart (e.2 + 1) ++ text ".rar")))

def rarPlan (d : Disk) : List (Text × Place) :=
  d.filesOf.filterMap single ++ volumes (d.filesOf.filterMap hiddenRar)

def rarRename (d : Disk) : Disk × List (Text × Place) := Disk.run (rarPlan d) (d, [])

/-- Both, one after the other. -/
def renamed (d : Disk) : Option (Disk × List (Text × Place)) :=
  (parRename md5 d).map fun st =>
    ((rarRename st.1).1, st.2 ++ (rarRename st.1).2)

/-! ### What a rename should keep -/

def moves (renames : List (Text × Place)) : List (Place × Place) :=
  renames.map fun m => (.inside m.1, m.2)

/-- `evidence_of`: where a file is that has been downloaded under this name. -/
def evidence (renames : List (Text × Place)) (n : Text) : Place :=
  lookupLast (moves renames) (.inside n)

/-- What the renames leave of a job directory. -/
structure Harmless (d d' : Disk) (renames : List (Text × Place)) : Prop where
  contents : (d'.files.map (·.2)).Perm (d.files.map (·.2))
  outside : d'.away = d.away
  composed : ∀ n bytes, d.lookup n = some bytes →
    d'.read (follow (moves renames) (.inside n)) = some bytes
  evidence : ∀ n bytes, d.lookup n = some bytes → d'.read (evidence renames n) = some bytes

/-- **What is claimed of the two passes:** they come to an end, and they are harmless. -/
def RenamesHarmlessly (d : Disk) : Prop :=
  ∃ d' renames, renamed md5 d = some (d', renames) ∧ Harmless d d' renames

/-! ### One rename -/

namespace Disk

variable {e : Text × Bytes}

theorem lookup_of_mem {d : Disk} (h : e ∈ d.files) : d.lookup e.1 = some e.2 := by
  cases hl : d.lookup e.1 with
  | none => exact absurd (List.mem_map_of_mem h) (lookup_eq_none.mp hl)
  | some bytes =>
    obtain ⟨x, hx, rfl⟩ := map_eq_some_iff.mp hl
    have hxe : x.1 = e.1 := by simpa using List.find?_some hx
    have hmem := List.mem_of_find?_eq_some hx
    rw [List.inj_on_of_nodup_map d.nodup hmem h hxe]

theorem mem_of_lookup {d : Disk} {bytes : Bytes} (h : d.lookup n = some bytes) :
    (n, bytes) ∈ d.files := by
  obtain ⟨x, hx, rfl⟩ := map_eq_some_iff.mp h
  have hxe : x.1 = n := by simpa using List.find?_some hx
  exact hxe ▸ List.mem_of_find?_eq_some hx

theorem lookup_eq_some {d : Disk} {bytes : Bytes} :
    d.lookup n = some bytes ↔ (n, bytes) ∈ d.files :=
  ⟨mem_of_lookup, fun h => lookup_of_mem h⟩

theorem lookup_move_inside (d : Disk) (s : Text) {m : Text} (h : d.taken (.inside m) = false)
    (n : Text) : (d.move s (.inside m) h).lookup n =
      if n = m then d.lookup s else if n = s then none else d.lookup n := by
  have hm : m ∉ d.files.map (·.1) := lookup_eq_none.mp (read_of_not_taken h)
  refine ext fun bytes => ?_
  rw [lookup_eq_some]
  change _ ∈ d.files.map _ ↔ _
  rw [List.mem_map]
  constructor
  · rintro ⟨e, he, heq⟩
    obtain ⟨hname, rfl⟩ := Prod.mk.inj heq
    split_ifs at hname with hes
    · rw [if_pos hname.symm, ← hes]
      exact lookup_of_mem he
    · have hnm : n ≠ m := fun h => hm (h ▸ hname ▸ List.mem_map_of_mem he)
      rw [if_neg hnm, if_neg (hname ▸ hes), ← hname]
      exact lookup_of_mem he
  · intro hl
    split_ifs at hl with hnm hns
    · exact ⟨(s, bytes), mem_of_lookup hl, by rw [if_pos rfl, hnm]⟩
    · exact ⟨(n, bytes), mem_of_lookup hl, by rw [if_neg hns]⟩

theorem lookup_move_outside (d : Disk) (s : Text) {p : List Text}
    (h : d.taken (.outside p) = false) (n : Text) :
    (d.move s (.outside p) h).lookup n = if n = s then none else d.lookup n := by
  refine ext fun bytes => ?_
  rw [lookup_eq_some]
  change _ ∈ d.files.filter _ ↔ _
  rw [List.mem_filter, ← lookup_eq_some]
  by_cases hns : n = s <;> simp [hns]

/-- **A rename is a move.** -/
theorem read_move (d : Disk) (s : Text) {pl : Place} (h : d.taken pl = false) :
    (d.move s pl h).read = Moving.move d.read (.inside s) pl := by
  funext x
  cases pl with
  | inside m =>
    cases x with
    | inside n => simpa [read, Moving.move] using lookup_move_inside d s h n
    | outside q => simp [read, Moving.move, move]
  | outside p =>
    cases x with
    | inside n => simpa [read, Moving.move] using lookup_move_outside d s h n
    | outside q => simp [read, Moving.move, move]

/-- Everything else about the directory stays. -/
structure Same (d d' : Disk) : Prop where
  dir : d'.dir = d.dir
  isDir : d'.isDir = d.isDir
  refuses : d'.refuses = d.refuses

theorem Same.refl (d : Disk) : Same d d := ⟨rfl, rfl, rfl⟩

theorem Same.trans {d d' d'' : Disk} (h : Same d d') (h' : Same d' d'') : Same d d'' :=
  ⟨h'.dir.trans h.dir, h'.isDir.trans h.isDir, h'.refuses.trans h.refuses⟩

theorem same_move (d : Disk) (s : Text) {pl : Place} (h : d.taken pl = false) :
    Same d (d.move s pl h) := by
  cases pl <;> exact ⟨rfl, rfl, rfl⟩

/-- What a rename may not meet, apart from a file. -/
def barred (d : Disk) (m : Text × Place) : Bool :=
  d.isDir (m.2.path d.dir) || m.2 = .inside [] || d.refuses m.1 m.2

variable {d d' : Disk}

theorem Same.barred (h : Same d d') (m : Text × Place) :
    d'.barred m = d.barred m := by
  rw [Disk.barred, Disk.barred, h.dir, h.isDir, h.refuses]

theorem safeRename_cases (d : Disk) (m : Text × Place) :
    (d.safeRename m = (d, []) ∧
      (d.barred m = true ∨ d.read m.2 ≠ none ∨ d.lookup m.1 = none)) ∨
    ∃ h : d.taken m.2 = false, d.barred m = false ∧ d.lookup m.1 ≠ none ∧
      d.safeRename m = (d.move m.1 m.2 h, [m]) := by
  unfold safeRename
  split
  · next h =>
    have htaken := h
    simp only [taken, Bool.or_eq_false_iff] at htaken
    split
    · next hrefused =>
      refine .inl ⟨rfl, ?_⟩
      rcases Bool.or_eq_true_iff.mp hrefused with hl | hr
      · exact .inr (.inr (isNone_iff_eq_none.mp hl))
      · exact .inl (by simp [barred, hr])
    · next hallowed =>
      obtain ⟨hl, hr⟩ := not_or.mp fun h' => hallowed (Bool.or_eq_true_iff.mpr h')
      refine .inr ⟨h, ?_, fun hnone => hl (isNone_iff_eq_none.mpr hnone), rfl⟩
      simp [barred, htaken.1.2, of_decide_eq_false htaken.2, Bool.eq_false_iff.mpr hr]
  · next h =>
    refine .inl ⟨rfl, ?_⟩
    have htaken : d.taken m.2 = true := Bool.not_eq_false _ ▸ h
    simp only [taken, Bool.or_eq_true] at htaken
    rcases htaken with (hread | hdir) | hname
    · exact .inr (.inl (isSome_iff_ne_none.mp hread))
    · exact .inl (by simp [barred, hdir])
    · exact .inl (by simp [barred, hname])

/-- A pass from `d` to `d'` along a plan, with the renames it has made. -/
structure Pass (plan : List (Text × Place)) (d d' : Disk) (renames : List (Text × Place)) :
    Prop where
  moves : Moves d.read (moves renames) d'.read
  sublist : renames.Sublist plan
  same : Same d d'
  length : d'.files.length ≤ d.files.length
  /-- Some file has left the directory, -/
  lost : (∃ m ∈ renames, ∃ p, m.2 = .outside p) → d'.files.length < d.files.length
  /-- or none has. -/
  inside : (∀ m ∈ renames, ∃ n, m.2 = .inside n) →
    d'.files.map (·.2) = d.files.map (·.2) ∧ d'.away = d.away
  allowed : ∀ m ∈ renames, d.barred m = false

theorem Pass.nil (d : Disk) : Pass [] d d [] where
  moves := .nil _
  sublist := List.Sublist.refl _
  same := .refl d
  length := Nat.le_refl _
  lost := fun ⟨_, hm, _⟩ => absurd hm List.not_mem_nil
  inside := fun _ => ⟨rfl, rfl⟩
  allowed := fun _ hm => absurd hm List.not_mem_nil

theorem moves_concat (L : List (Text × Place)) (m : Text × Place) :
    Post.moves (L ++ [m]) = Post.moves L ++ [(.inside m.1, m.2)] := by
  simp [Post.moves]

theorem length_move_lt {d : Disk} {s : Text} {p : List Text} (h : d.taken (.outside p) = false)
    (hs : d.lookup s ≠ none) : (d.move s (.outside p) h).files.length < d.files.length := by
  obtain ⟨bytes, hbytes⟩ := ne_none_iff_exists'.mp hs
  exact List.length_filter_lt_length_iff_exists.mpr ⟨_, mem_of_lookup hbytes, by simp⟩

theorem length_move_le {d : Disk} (s : Text) {pl : Place} (h : d.taken pl = false) :
    (d.move s pl h).files.length ≤ d.files.length := by
  cases pl with
  | inside m => exact (List.length_map _).le
  | outside p => exact List.length_filter_le _ _

theorem move_inside {d : Disk} (s : Text) {m : Text} (h : d.taken (.inside m) = false) :
    (d.move s (.inside m) h).files.map (·.2) = d.files.map (·.2) ∧
      (d.move s (.inside m) h).away = d.away := by
  refine ⟨?_, rfl⟩
  change (d.files.map _).map _ = _
  rw [List.map_map]
  rfl

theorem Pass.step {plan L : List (Text × Place)} (h : Pass plan d d' L)
    (m : Text × Place) :
    Pass (plan ++ [m]) d (d'.safeRename m).1 (L ++ (d'.safeRename m).2) := by
  rcases safeRename_cases d' m with ⟨heq, -⟩ | ⟨htaken, hbarred, hsrc, heq⟩
  · rw [heq, List.append_nil]
    exact { h with sublist := h.sublist.trans (List.sublist_append_left _ _) }
  · rw [heq]
    refine ⟨?_, h.sublist.append (List.Sublist.refl _), h.same.trans (same_move d' m.1 htaken),
      ?_, ?_, ?_, ?_⟩
    · rw [moves_concat, read_move]
      exact h.moves.concat hsrc (read_of_not_taken htaken)
    · exact (length_move_le m.1 htaken).trans h.length
    · rintro ⟨x, hx, p, hp⟩
      rcases List.mem_append.mp hx with hx | hx
      · exact (length_move_le m.1 htaken).trans_lt (h.lost ⟨x, hx, p, hp⟩)
      · obtain rfl := List.mem_singleton.mp hx
        obtain ⟨s, pl⟩ := x
        obtain rfl : pl = .outside p := hp
        exact (length_move_lt htaken hsrc).trans_le h.length
    · intro hall
      obtain ⟨hcontents, haway⟩ := h.inside fun x hx => hall x (List.mem_append_left _ hx)
      obtain ⟨n, hn⟩ := hall m (by simp)
      obtain ⟨s, pl⟩ := m
      obtain rfl : pl = .inside n := hn
      obtain ⟨hc, ha⟩ := move_inside s htaken
      exact ⟨hc.trans hcontents, ha.trans haway⟩
    · intro x hx
      rcases List.mem_append.mp hx with hx | hx
      · exact h.allowed x hx
      · rw [List.mem_singleton.mp hx, ← h.same.barred m]
        exact hbarred

theorem run_concat (plan : List (Text × Place)) (m : Text × Place)
    (st : Disk × List (Text × Place)) :
    run (plan ++ [m]) st = (((run plan st).1.safeRename m).1,
      (run plan st).2 ++ ((run plan st).1.safeRename m).2) := by
  rw [run, List.foldl_append]
  rfl

/-- **A pass is a sequence of moves.** -/
theorem pass_run (plan : List (Text × Place)) (d : Disk) :
    Pass plan d (run plan (d, [])).1 (run plan (d, [])).2 := by
  induction plan using List.reverseRecOn with
  | nil => exact .nil d
  | append_singleton plan m ih =>
    rw [run_concat]
    exact ih.step m

theorem run_eq (plan : List (Text × Place)) (d : Disk) (L : List (Text × Place)) :
    run plan (d, L) = ((run plan (d, [])).1, L ++ (run plan (d, [])).2) := by
  induction plan using List.reverseRecOn with
  | nil => exact congrArg (Prod.mk d) (List.append_nil L).symm
  | append_singleton plan m ih => rw [run_concat, run_concat, ih, List.append_assoc]

/-- The files a plan is about are there, each once. -/
structure Sound (plan : List (Text × Place)) (d : Disk) : Prop where
  nodup : (plan.map (·.1)).Nodup
  there : ∀ m ∈ plan, d.lookup m.1 ≠ none

theorem Sound.left {plan plan' : List (Text × Place)} {d : Disk} (h : Sound (plan ++ plan') d) :
    Sound plan d where
  nodup := h.nodup.sublist ((List.sublist_append_left plan plan').map _)
  there := fun m hm => h.there m (List.mem_append_left _ hm)

theorem mem_keys {L : List (Text × Place)} :
    Place.inside n ∈ (Post.moves L).map (·.1) ↔ n ∈ L.map (·.1) := by
  simp [Post.moves]

theorem outside_not_mem_keys {L : List (Text × Place)} {p : List Text} :
    Place.outside p ∉ (Post.moves L).map (·.1) := by
  simp [Post.moves]

variable {m : Text × Place}

theorem mem_moves {L : List (Text × Place)} (h : m ∈ L) :
    (Place.inside m.1, m.2) ∈ Post.moves L :=
  List.mem_map.mpr ⟨m, h, rfl⟩

theorem Pass.once {plan L : List (Text × Place)} (h : Pass plan d d' L)
    (hs : Sound plan d) : Once (Post.moves L) := by
  refine h.moves.once ?_ ?_
  · have hkeys : (Post.moves L).map (·.1) = (L.map (·.1)).map Place.inside := by
      simp [Post.moves]
    rw [hkeys]
    exact (hs.nodup.sublist (h.sublist.map _)).map fun _ _ heq => Place.inside.inj heq
  · intro m hm
    obtain ⟨x, hx, rfl⟩ := List.mem_map.mp hm
    exact hs.there x (h.sublist.subset hx)

theorem Pass.read_dst {plan L : List (Text × Place)} (h : Pass plan d d' L)
    (hs : Sound plan d) (hm : m ∈ L) : d'.read m.2 = d.lookup m.1 := by
  obtain ⟨bytes, hbytes⟩ := ne_none_iff_exists'.mp (hs.there m (h.sublist.subset hm))
  have hsrc : d.read (.inside m.1) ≠ none := fun hnone => hs.there m (h.sublist.subset hm) hnone
  have hfollow := h.moves.follow_of_mem (h.once hs) (mem_moves hm) hsrc
  rw [hbytes, ← hfollow]
  exact h.moves.follow_eq hbytes

theorem Pass.lookupLast_eq {plan L : List (Text × Place)} (h : Pass plan d d' L)
    (hs : Sound plan d) (hm : m ∈ L) :
    lookupLast (Post.moves L) (.inside m.1) = m.2 := by
  have hsrc : d.read (.inside m.1) ≠ none := fun hnone => hs.there m (h.sublist.subset hm) hnone
  rw [h.moves.lookupLast_eq (h.once hs) hsrc]
  exact h.moves.follow_of_mem (h.once hs) (mem_moves hm) hsrc

theorem Pass.lookup_stays {plan L : List (Text × Place)} (h : Pass plan d d' L)
    {bytes : Bytes} (hn : d.lookup n = some bytes) (hL : n ∉ L.map (·.1)) :
    d'.lookup n = some bytes := by
  have hread : d.read (.inside n) = some bytes := hn
  exact h.moves.stays hread fun hmem => hL (mem_keys.mp hmem)

theorem Pass.exists_src {plan L : List (Text × Place)} (h : Pass plan d d' L)
    (hs : Sound plan d) {bytes : Bytes} (hn : d'.lookup n = some bytes) :
    (n ∉ L.map (·.1) ∧ d.lookup n = some bytes) ∨
      ∃ m ∈ L, m.2 = .inside n ∧ d.lookup m.1 = some bytes := by
  have hread : d'.read (.inside n) = some bytes := hn
  obtain ⟨q, hq, hfollow⟩ := h.moves.exists_follow hread
  by_cases hmem : q ∈ (Post.moves L).map (·.1)
  · obtain ⟨x, hx, rfl⟩ := List.mem_map.mp hmem
    obtain ⟨m, hm, rfl⟩ := List.mem_map.mp hx
    have hsrc : d.read (.inside m.1) ≠ none := by simp [hq]
    rw [h.moves.follow_of_mem (h.once hs) (mem_moves hm) hsrc] at hfollow
    exact .inr ⟨m, hm, hfollow, hq⟩
  · rw [follow_of_not_mem hmem] at hfollow
    subst hfollow
    exact .inl ⟨fun hkey => hmem (mem_keys.mpr hkey), hq⟩

theorem Pass.lookup_last {plan L : List (Text × Place)} (h : Pass plan d d' L)
    (hs : Sound (plan ++ [m]) d) : d'.lookup m.1 ≠ none := by
  obtain ⟨bytes, hbytes⟩ := ne_none_iff_exists'.mp (hs.there m (by simp))
  have hno : m.1 ∉ L.map (·.1) := by
    intro hmem
    have hdisj := List.disjoint_of_nodup_append (List.map_append ▸ hs.nodup)
    exact hdisj ((h.sublist.map _).subset hmem) (by simp)
  have hstay : d'.read (.inside m.1) = some bytes :=
    h.moves.stays hbytes fun hmem => hno (mem_keys.mp hmem)
  exact fun hnone => by
    rw [read, hnone] at hstay
    cases hstay

theorem taken_of_run {plan : List (Text × Place)} {d : Disk} (hs : Sound plan d)
    (hm : m ∈ plan) (hbarred : d.barred m = false) :
    d.read m.2 ≠ none ∨ ∃ x ∈ (run plan (d, [])).2, x.2 = m.2 := by
  induction plan using List.reverseRecOn with
  | nil => cases hm
  | append_singleton plan y ih =>
    rw [run_concat]
    have hpass := pass_run plan d
    rcases List.mem_append.mp hm with hm | hm
    · refine (ih hs.left hm).imp_right ?_
      rintro ⟨x, hx, hxm⟩
      exact ⟨x, List.mem_append_left _ hx, hxm⟩
    · obtain rfl := List.mem_singleton.mp hm
      rcases safeRename_cases (run plan (d, [])).1 m with ⟨-, hno⟩ | ⟨_, -, -, heq⟩
      · rcases hno with hno | hno | hno
        · rw [hpass.same.barred, hbarred] at hno
          cases hno
        · refine (hpass.moves.filled hno).imp_right ?_
          rintro ⟨x, hx, hxm⟩
          obtain ⟨z, hz, rfl⟩ := List.mem_map.mp hx
          exact ⟨z, List.mem_append_left _ hz, hxm⟩
        · exact absurd hno (hpass.lookup_last hs)
      · exact .inr ⟨m, by simp [heq], rfl⟩

/-- A rename that is made: nothing is at the place, and nothing that is not barred goes
there before it. -/
def Takes (d : Disk) (plan : List (Text × Place)) (m : Text × Place) : Prop :=
  ∃ before after, plan = before ++ m :: after ∧ d.barred m = false ∧ d.read m.2 = none ∧
    ∀ x ∈ before, x.2 = m.2 → d.barred x = true

/-- **What a pass does whose places are not those of its files.** -/
theorem mem_run_iff {plan : List (Text × Place)} {d : Disk} (hs : Sound plan d)
    (hapart : ∀ m ∈ plan, ∀ x ∈ plan, m.2 ≠ .inside x.1) :
    m ∈ (run plan (d, [])).2 ↔ d.Takes plan m := by
  induction plan using List.reverseRecOn generalizing m with
  | nil =>
    refine ⟨fun h => (by cases h), ?_⟩
    rintro ⟨before, after, heq, -⟩
    cases before <;> cases heq
  | append_singleton plan y ih =>
    have hpass := pass_run plan d
    have hplan : ∀ {x}, x ∈ (run plan (d, [])).2 ↔ d.Takes plan x := ih hs.left
      fun x hx z hz => hapart x (List.mem_append_left _ hx) z (List.mem_append_left _ hz)
    have hkeep : y.2 ∉ (Post.moves (run plan (d, [])).2).map (·.1) := by
      intro hmem
      obtain ⟨x, hx, heq⟩ := List.mem_map.mp hmem
      obtain ⟨z, hz, rfl⟩ := List.mem_map.mp hx
      exact hapart y (by simp) z (List.mem_append_left _ (hpass.sublist.subset hz)) heq.symm
    rw [run_concat, List.mem_append, hplan]
    constructor
    · rintro (⟨before, after, rfl, htakes⟩ | hm)
      · exact ⟨before, after ++ [y], by simp, htakes⟩
      · rcases safeRename_cases (run plan (d, [])).1 y with ⟨heq, -⟩ | ⟨htaken, hbarred, -, heq⟩
        · rw [heq] at hm
          cases hm
        · rw [heq] at hm
          obtain rfl := List.mem_singleton.mp hm
          have hfree := read_of_not_taken htaken
          have hnone : d.read m.2 = none := by
            by_contra hne
            obtain ⟨bytes, hbytes⟩ := ne_none_iff_exists'.mp hne
            rw [hpass.moves.stays hbytes hkeep] at hfree
            cases hfree
          refine ⟨plan, [], rfl, (hpass.same.barred m).symm.trans hbarred, hnone, ?_⟩
          intro x hx hxm
          by_contra hbx
          rcases taken_of_run hs.left hx (Bool.not_eq_true _ ▸ hbx) with hne | ⟨z, hz, hzx⟩
          · exact hne (hxm ▸ hnone)
          · have hzm : z.2 = m.2 := hzx.trans hxm
            have hdst := hpass.moves.dst_filled (mem_moves hz) (hzm ▸ hkeep)
            exact hdst (hzm ▸ hfree)
    · rintro ⟨before, after, heq, hbarred, hnone, hbefore⟩
      rcases List.eq_nil_or_concat after with rfl | ⟨after, z, rfl⟩
      · obtain ⟨rfl, hym⟩ := List.append_inj' heq rfl
        obtain rfl := (List.cons.inj hym).1
        refine .inr ?_
        rcases safeRename_cases (run plan (d, [])).1 y with ⟨-, hno⟩ | ⟨_, -, -, hmove⟩
        · rcases hno with hno | hno | hno
          · rw [hpass.same.barred, hbarred] at hno
            cases hno
          · rcases hpass.moves.filled hno with hne | ⟨x, hx, hxy⟩
            · exact absurd hnone hne
            · obtain ⟨z, hz, rfl⟩ := List.mem_map.mp hx
              have hb := hbefore z (hpass.sublist.subset hz) hxy
              rw [hpass.allowed z hz] at hb
              cases hb
          · exact absurd hno (hpass.lookup_last hs)
        · rw [hmove]
          exact List.mem_singleton_self y
      · rw [List.concat_eq_append, ← List.cons_append, ← List.append_assoc] at heq
        exact .inl ⟨before, after, (List.append_inj' heq rfl).1, hbarred, hnone, hbefore⟩

end Disk

/-! ### File names -/

theorem splitName_append {stem ext : Text} (hstem : stem ≠ []) (hext : '.' ∉ ext) :
    splitName (stem ++ '.' :: ext) = (stem, some ext) := by
  have hlast : afterLast (· = '.') (stem ++ '.' :: ext) = ext := by
    have hall : ∀ c ∈ ext.reverse, (!decide (c = '.')) = true := by
      intro c hc
      have hne : c ≠ '.' := fun heq => hext (heq ▸ List.mem_reverse.mp hc)
      simp [hne]
    rw [afterLast, List.reverse_append, List.reverse_cons, List.append_assoc,
      List.singleton_append, List.takeWhile_append_of_pos hall]
    simp
  have htake : (stem ++ '.' :: ext).take ((stem ++ '.' :: ext).length - ext.length - 1) = stem := by
    have hlen : (stem ++ '.' :: ext).length - ext.length - 1 = stem.length := by
      simp only [List.length_append, List.length_cons]
      omega
    rw [hlen, List.take_left]
  rw [splitName, hlast, htake, if_pos ⟨by simp, hstem⟩]

theorem fileStem_ne_nil (h : n ≠ []) : fileStem n ≠ [] := by
  unfold fileStem splitName
  dsimp only
  split
  · next hs => exact hs.2
  · exact h

theorem extIs_par2 {stem : Text} (h : stem ≠ []) :
    extIs (stem ++ text ".par2") (text "par2") = true := by
  rw [extIs, show text ".par2" = '.' :: text "par2" from rfl, splitName_append h (by decide)]
  rfl

theorem isKnown_append {stem ext : Text} (h : stem ≠ []) (hdot : '.' ∉ ext)
    (hext : toLowercase ext ∈ known) : isKnown (stem ++ '.' :: ext) = true := by
  rw [isKnown, splitName_append h hdot]
  simp [hext]

theorem isKnown_of_extIs (h : extIs n (text "par2") = true) : isKnown n = true := by
  obtain ⟨ext, hext, heq⟩ := (any_eq_true _ _).mp h
  have hlower : ext.map Char.toLower = text "par2" := of_decide_eq_true heq
  have hsame : toLowercase ext = text "par2" := by
    rw [← hlower]
    refine List.map_congr_left fun c hc => if_neg fun hkelvin => ?_
    have hmem : c.toLower ∈ text "par2" := hlower ▸ List.mem_map_of_mem hc
    rw [hkelvin] at hmem
    exact absurd hmem (by decide)
  rw [isKnown, hext, getD_some, hsame]
  decide

/-! ### What the plans are about -/

namespace Disk

theorem mem_filesOf {d : Disk} : e ∈ d.filesOf ↔ e ∈ d.files :=
  List.mem_insertionSort _

theorem nodup_filesOf (d : Disk) : (d.filesOf.map (·.1)).Nodup :=
  ((List.perm_insertionSort _ _).map _).nodup_iff.mpr d.nodup

theorem ne_nil_of_mem {d : Disk} (h : e ∈ d.files) : e.1 ≠ [] :=
  fun heq => d.named (heq ▸ List.mem_map_of_mem h)

theorem nodup_filterMap (d : Disk) {γ : Type*} {g : Text × Bytes → Option γ} {k : γ → Text}
    (hg : ∀ e m, g e = some m → k m = e.1) : ((d.filesOf.filterMap g).map k).Nodup := by
  refine d.nodup_filesOf.sublist ?_
  generalize d.filesOf = l
  induction l with
  | nil => exact List.Sublist.slnil
  | cons e l ih =>
    rw [List.filterMap_cons]
    split
    · exact ih.cons _
    · next m hm =>
      rw [List.map_cons, List.map_cons, hg e m hm]
      exact ih.cons_cons _

theorem sound_filterMap (d : Disk) {g : Text × Bytes → Option (Text × Place)}
    (hg : ∀ e m, g e = some m → m.1 = e.1) : Sound (d.filesOf.filterMap g) d where
  nodup := d.nodup_filterMap hg
  there := by
    intro m hm
    obtain ⟨e, he, hem⟩ := List.mem_filterMap.mp hm
    rw [hg e m hem, lookup_of_mem (mem_filesOf.mp he)]
    exact some_ne_none _

theorem mem_restorePlan {d : Disk} (h : m ∈ restorePlan d) :
    ∃ bytes, d.lookup m.1 = some bytes ∧ extIs m.1 (text "par2") = false ∧
      bytes.take 8 = par2Magic ∧ m.2 = .inside (fileStem m.1 ++ text ".par2") ∧ m.1 ≠ [] := by
  obtain ⟨e, he, hem⟩ := List.mem_filterMap.mp h
  have hmem := mem_filesOf.mp he
  split at hem
  · next hcond =>
    obtain rfl := some.inj hem
    obtain ⟨hext, hmagic⟩ := Bool.and_eq_true_iff.mp hcond
    exact ⟨e.2, lookup_of_mem hmem, by simpa using hext, of_decide_eq_true hmagic, rfl,
      ne_nil_of_mem hmem⟩
  · cases hem

theorem sound_restorePlan (d : Disk) : Sound (restorePlan d) d := by
  refine sound_filterMap d fun e m hem => ?_
  split at hem
  · obtain rfl := some.inj hem
    rfl
  · cases hem

theorem mem_parPlan {md5 : Bytes → Bytes} {set : Par2Set} {d : Disk}
    (h : m ∈ parPlan md5 set d) : ∃ bytes, d.lookup m.1 = some bytes ∧
      extIs m.1 (text "par2") = false ∧ trueName md5 set d bytes = some m.2 := by
  obtain ⟨e, he, hem⟩ := List.mem_filterMap.mp h
  split at hem
  · cases hem
  · next hcond =>
    obtain ⟨pl, hpl, rfl⟩ := map_eq_some_iff.mp hem
    obtain ⟨hext, -⟩ := not_or.mp fun h' => hcond (Bool.or_eq_true_iff.mpr h')
    exact ⟨e.2, lookup_of_mem (mem_filesOf.mp he), Bool.not_eq_true _ ▸ hext, hpl⟩

theorem sound_parPlan (md5 : Bytes → Bytes) (set : Par2Set) (d : Disk) :
    Sound (parPlan md5 set d) d := by
  refine sound_filterMap d fun e m hem => ?_
  split at hem
  · cases hem
  · obtain ⟨pl, -, rfl⟩ := map_eq_some_iff.mp hem
    rfl

/-- Looks like an archive. -/
def isArchive (bytes : Bytes) : Bool :=
  rarMagic.isPrefixOf bytes || sevenZipMagic.isPrefixOf bytes || zipMagic.isPrefixOf bytes

theorem not_isArchive {bytes : Bytes} (h : bytes.take 8 = par2Magic) : isArchive bytes = false := by
  obtain ⟨rest, rfl⟩ : ∃ rest, bytes = par2Magic ++ rest :=
    ⟨bytes.drop 8, by rw [← h, List.take_append_drop]⟩
  rfl

theorem hiddenRar_eq {r : Text × Option Nat} (h : hiddenRar e = some r) :
    r.1 = e.1 ∧ isKnown e.1 = false ∧ rarMagic.isPrefixOf e.2 = true := by
  unfold hiddenRar at h
  split at h
  · next hcond =>
    obtain rfl := some.inj h
    obtain ⟨hknown, hrar⟩ := Bool.and_eq_true_iff.mp hcond
    exact ⟨rfl, by simpa using hknown, hrar⟩
  · cases h

theorem single_eq (h : single e = some m) :
    m.1 = e.1 ∧ isKnown e.1 = false ∧ isArchive e.2 = true ∧ rarMagic.isPrefixOf e.2 = false ∧
      ∃ ext, '.' ∉ ext ∧ toLowercase ext ∈ known ∧ m.2 = .inside (fileStem e.1 ++ '.' :: ext) := by
  unfold single at h
  split at h
  · cases h
  · next hcond =>
    obtain ⟨hknown, hrar⟩ := not_or.mp fun h' => hcond (Bool.or_eq_true_iff.mpr h')
    have hknown' := Bool.not_eq_true _ ▸ hknown
    have hrar' := Bool.not_eq_true _ ▸ hrar
    split at h
    · next h7 =>
      obtain rfl := some.inj h
      exact ⟨rfl, hknown', by simp [isArchive, h7], hrar', text "7z", by decide, by decide, rfl⟩
    · split at h
      · next hzip =>
        obtain rfl := some.inj h
        exact ⟨rfl, hknown', by simp [isArchive, hzip], hrar', text "zip", by decide, by decide, rfl⟩
      · cases h

theorem perm_ordered (rars : List (Text × Option Nat)) :
    (ordered rars).Perm (rars.map (·.1)) := by
  unfold ordered
  split
  · exact (List.perm_insertionSort _ _).map _
  · exact List.Perm.refl _

theorem perm_volumes (rars : List (Text × Option Nat)) :
    ((volumes rars).map (·.1)).Perm (rars.map (·.1)) := by
  match rars with
  | [] => exact List.Perm.refl _
  | [_] => exact List.Perm.refl _
  | r :: r' :: rars =>
    have hkeys : (volumes (r :: r' :: rars)).map (·.1) = ordered (r :: r' :: rars) := by
      rw [volumes, List.map_map]
      · exact List.zipIdx_map_fst 0 _
      · exact fun h => by cases h
    rw [hkeys]
    exact perm_ordered _

theorem mem_volumes {rars : List (Text × Option Nat)} (hne : ∀ r ∈ rars, r.1 ≠ [])
    (h : m ∈ volumes rars) : ∃ n, m.2 = .inside n ∧ isKnown n = true := by
  match rars with
  | [] => cases h
  | [r] =>
    obtain rfl := List.mem_singleton.mp h
    exact ⟨_, rfl, isKnown_append (fileStem_ne_nil (hne r (by simp))) (by decide) (by decide)⟩
  | r :: r' :: rars =>
    rw [volumes] at h
    · obtain ⟨e, -, rfl⟩ := List.mem_map.mp h
      refine ⟨_, rfl, ?_⟩
      have hsplit : fileStem r.1 ++ (text ".part" ++ showPart (e.2 + 1) ++ text ".rar") =
          (fileStem r.1 ++ (text ".part" ++ showPart (e.2 + 1))) ++ '.' :: text "rar" := by
        rw [List.append_assoc, List.append_assoc]
        simp only [List.append_assoc]
        rfl
      rw [hsplit]
      refine isKnown_append ?_ (by decide) (by decide)
      simp [fileStem_ne_nil (hne r (by simp))]
    · exact fun h => by cases h

theorem mem_rarPlan {d : Disk} (h : m ∈ rarPlan d) :
    isKnown m.1 = false ∧ (∃ bytes, d.lookup m.1 = some bytes ∧ isArchive bytes = true) ∧
      ∃ n, m.2 = .inside n ∧ isKnown n = true := by
  rcases List.mem_append.mp h with h | h
  · obtain ⟨e, he, hem⟩ := List.mem_filterMap.mp h
    have hmem := mem_filesOf.mp he
    obtain ⟨hname, hknown, harchive, -, ext, hdot, hext, hplace⟩ := single_eq hem
    refine ⟨hname ▸ hknown, ⟨e.2, hname ▸ lookup_of_mem hmem, harchive⟩, _, hplace, ?_⟩
    exact isKnown_append (fileStem_ne_nil (ne_nil_of_mem hmem)) hdot hext
  · have hkey : m.1 ∈ (d.filesOf.filterMap hiddenRar).map (·.1) :=
      (perm_volumes _).subset (List.mem_map_of_mem h)
    obtain ⟨r, hr, hrm⟩ := List.mem_map.mp hkey
    obtain ⟨e, he, her⟩ := List.mem_filterMap.mp hr
    obtain ⟨hname, hknown, hrar⟩ := hiddenRar_eq her
    have hmem := mem_filesOf.mp he
    have hem : e.1 = m.1 := hname.symm.trans hrm
    refine ⟨hem ▸ hknown, ⟨e.2, hem ▸ lookup_of_mem hmem, by simp [isArchive, hrar]⟩, ?_⟩
    refine mem_volumes (fun x hx => ?_) h
    obtain ⟨y, hy, hyx⟩ := List.mem_filterMap.mp hx
    rw [(hiddenRar_eq hyx).1]
    exact ne_nil_of_mem (mem_filesOf.mp hy)

theorem sound_rarPlan (d : Disk) : Sound (rarPlan d) d where
  nodup := by
    have hsingle := d.nodup_filterMap (g := single) (k := Prod.fst) fun e m h => (single_eq h).1
    have hrars := d.nodup_filterMap (g := hiddenRar) (k := Prod.fst) fun e r h =>
      (hiddenRar_eq h).1
    rw [rarPlan, List.map_append]
    refine hsingle.append ((perm_volumes _).nodup_iff.mpr hrars) ?_
    intro n hn hn'
    obtain ⟨m, hm, rfl⟩ := List.mem_map.mp hn
    obtain ⟨e, he, hem⟩ := List.mem_filterMap.mp hm
    obtain ⟨r, hr, hrm⟩ := List.mem_map.mp ((perm_volumes _).subset hn')
    obtain ⟨e', he', her⟩ := List.mem_filterMap.mp hr
    obtain ⟨hname, -, -, hnot, -⟩ := single_eq hem
    obtain ⟨hname', -, hrar⟩ := hiddenRar_eq her
    have hsame : e = e' := List.inj_on_of_nodup_map d.nodup (mem_filesOf.mp he)
      (mem_filesOf.mp he') (by rw [← hname, ← hname', hrm])
    rw [hsame, hrar] at hnot
    cases hnot
  there := by
    intro m hm
    obtain ⟨-, ⟨bytes, hbytes, -⟩, -⟩ := mem_rarPlan hm
    rw [hbytes]
    exact some_ne_none _

theorem apart_rarPlan (d : Disk) :
    ∀ m ∈ rarPlan d, ∀ x ∈ rarPlan d, m.2 ≠ .inside x.1 := by
  intro m hm x hx heq
  obtain ⟨-, -, n, hn, hknown⟩ := mem_rarPlan hm
  rw [hn] at heq
  rw [Place.inside.inj heq, (mem_rarPlan hx).1] at hknown
  cases hknown

end Disk

/-! ### When the renames are harmless -/

variable {md5}

/-- The recovery files have their extension. -/
def restored (d : Disk) : Disk := (Disk.run (restorePlan d) (d, [])).1

/-- **The condition.** -/
structure Tame (md5 : Bytes → Bytes) (d : Disk) : Prop where
  /-- No recovery file stops the process. -/
  readable : (loadDir (restored d)).isSome
  /-- A name that leads out of the directory leads to where something is, or where
  nothing can be put. -/
  within : ∀ set, loadDir (restored d) = some (some set) → ∀ n p,
    (n, .outside p) ∈ parPlan md5 set (restored d) →
    (restored d).read (.outside p) ≠ none ∨ (restored d).barred (n, .outside p) = true
  /-- An archive that the third pass moves has been downloaded under the name it has
  then. -/
  once : ∀ d' renames, parRename md5 d = some (d', renames) → ∀ n pl,
    d'.Takes (rarPlan d') (n, pl) → d.lookup n = d'.lookup n

/-- What the second pass does, if there is a recovery set. -/
def planOf (md5 : Bytes → Bytes) (set : Option Par2Set) (d : Disk) : List (Text × Place) :=
  set.elim [] fun set => parPlan md5 set d

structure Stages (d d₁ d₂ d₃ : Disk) (plan L₁ L₂ L₃ : List (Text × Place)) : Prop where
  first : Disk.Pass (restorePlan d) d d₁ L₁
  second : Disk.Pass plan d₁ d₂ L₂
  third : Disk.Pass (rarPlan d₂) d₂ d₃ L₃
  sound : Disk.Sound plan d₁
  ext : ∀ m ∈ plan, extIs m.1 (text "par2") = false
  /-- The place depends on what is in a file. -/
  place : ∀ m ∈ plan, ∀ x ∈ plan, d₁.lookup m.1 = d₁.lookup x.1 → m.2 = x.2

theorem stages {d : Disk} {set : Option Par2Set} (hset : loadDir (restored d) = some set) :
    let st := Disk.run (planOf md5 set (restored d)) (restored d, [])
    let L₁ := (Disk.run (restorePlan d) (d, [])).2
    parRename md5 d = some (st.1, L₁ ++ st.2) ∧
      renamed md5 d = some ((rarRename st.1).1, L₁ ++ st.2 ++ (rarRename st.1).2) ∧
      Stages d (restored d) st.1 (rarRename st.1).1 (planOf md5 set (restored d)) L₁ st.2
        (rarRename st.1).2 := by
  intro st L₁
  have hpar : parRename md5 d = some (st.1, L₁ ++ st.2) := by
    rw [parRename]
    change (loadDir (restored d)).map _ = _
    rw [hset, map_some]
    cases set with
    | none => exact congrArg some (Prod.ext rfl (List.append_nil _).symm)
    | some set => exact congrArg some (Disk.run_eq (parPlan md5 set (restored d)) (restored d) L₁)
  refine ⟨hpar, by rw [renamed, hpar, map_some], Disk.pass_run _ d, Disk.pass_run _ _,
    Disk.pass_run _ _, ?_, ?_, ?_⟩
  · cases set with
    | none => exact ⟨List.nodup_nil, fun m hm => absurd hm List.not_mem_nil⟩
    | some set => exact Disk.sound_parPlan md5 set _
  · intro m hm
    cases set with
    | none => cases hm
    | some set =>
      obtain ⟨-, -, hext, -⟩ := Disk.mem_parPlan hm
      exact hext
  · intro m hm x hx heq
    cases set with
    | none => cases hm
    | some set =>
      obtain ⟨bytes, hbytes, -, hplace⟩ := Disk.mem_parPlan hm
      obtain ⟨bytes', hbytes', -, hplace'⟩ := Disk.mem_parPlan hx
      rw [hbytes, hbytes'] at heq
      rw [some.inj heq] at hplace
      exact some.inj (hplace.symm.trans hplace')

namespace Stages

variable {d d₁ d₂ d₃ : Disk} {plan L₁ L₂ L₃ : List (Text × Place)}

theorem all (h : Stages d d₁ d₂ d₃ plan L₁ L₂ L₃) :
    Moves d.read (moves (L₁ ++ L₂ ++ L₃)) d₃.read := by
  have happ : moves (L₁ ++ L₂ ++ L₃) = moves L₁ ++ moves L₂ ++ moves L₃ := by simp [moves]
  rw [happ]
  exact (h.first.moves.append h.second.moves).append h.third.moves

theorem once₁ (h : Stages d d₁ d₂ d₃ plan L₁ L₂ L₃) : Once (moves L₁) :=
  h.first.once (Disk.sound_restorePlan d)

theorem once₂ (h : Stages d d₁ d₂ d₃ plan L₁ L₂ L₃) : Once (moves L₂) := h.second.once h.sound

theorem once₃ (h : Stages d d₁ d₂ d₃ plan L₁ L₂ L₃) : Once (moves L₃) :=
  h.third.once (Disk.sound_rarPlan d₂)

theorem restored_place (h : Stages d d₁ d₂ d₃ plan L₁ L₂ L₃) {a : Text × Place} (ha : a ∈ L₁) :
    ∃ n, a.2 = .inside n ∧ extIs n (text "par2") = true ∧ n ∉ L₂.map (·.1) ∧
      n ∉ L₃.map (·.1) := by
  obtain ⟨-, -, -, -, hplace, hne⟩ := Disk.mem_restorePlan (h.first.sublist.subset ha)
  have hext := extIs_par2 (fileStem_ne_nil hne)
  refine ⟨_, hplace, hext, fun hmem => ?_, fun hmem => ?_⟩
  · obtain ⟨x, hx, heq⟩ := List.mem_map.mp hmem
    rw [← heq, h.ext x (h.second.sublist.subset hx)] at hext
    cases hext
  · obtain ⟨x, hx, heq⟩ := List.mem_map.mp hmem
    have hknown := isKnown_of_extIs hext
    rw [← heq, (Disk.mem_rarPlan (h.third.sublist.subset hx)).1] at hknown
    cases hknown

/-- What is left is that no file is moved by its name in the set and then by what it
looks like. -/
theorem once_iff (h : Stages d d₁ d₂ d₃ plan L₁ L₂ L₃) :
    Once (moves (L₁ ++ L₂ ++ L₃)) ↔ ∀ a ∈ L₂, ∀ b ∈ L₃, a.2 ≠ .inside b.1 := by
  have happ : moves (L₁ ++ L₂ ++ L₃) = moves L₁ ++ moves L₂ ++ moves L₃ := by simp [moves]
  have hfirst : ∀ a ∈ moves L₁, ∀ b, b ∈ moves L₂ ∨ b ∈ moves L₃ → a.2 ≠ b.1 := by
    rintro a ha b hb heq
    obtain ⟨x, hx, rfl⟩ := List.mem_map.mp ha
    obtain ⟨n, hn, -, h₂, h₃⟩ := h.restored_place hx
    have hbn : b.1 = .inside n := heq.symm.trans hn
    rcases hb with hb | hb
    · exact h₂ (Disk.mem_keys.mp (hbn ▸ List.mem_map.mpr ⟨b, hb, rfl⟩))
    · exact h₃ (Disk.mem_keys.mp (hbn ▸ List.mem_map.mpr ⟨b, hb, rfl⟩))
  rw [happ, once_append, once_append]
  constructor
  · rintro ⟨-, -, hcross⟩ a ha b hb
    exact hcross _ (List.mem_append_right _ (Disk.mem_moves ha)) _ (Disk.mem_moves hb)
  · intro hcross
    refine ⟨⟨h.once₁, h.once₂, fun a ha b hb => hfirst a ha b (.inl hb)⟩, h.once₃, ?_⟩
    intro a ha b hb
    rcases List.mem_append.mp ha with ha | ha
    · exact hfirst a ha b (.inr hb)
    · obtain ⟨x, hx, rfl⟩ := List.mem_map.mp ha
      obtain ⟨y, hy, rfl⟩ := List.mem_map.mp hb
      exact hcross x hx y hy

theorem not_shifted (h : Stages d d₁ d₂ d₃ plan L₁ L₂ L₃) {a : Text × Place} (ha : a ∈ L₂)
    {m : Text} (hm : a.2 = .inside m) (hsame : d₁.lookup m = d₁.lookup a.1) :
    m ∉ L₂.map (·.1) := by
  intro hkey
  obtain ⟨x, hx, rfl⟩ := List.mem_map.mp hkey
  have hplace := h.place x (h.second.sublist.subset hx) a (h.second.sublist.subset ha) hsame
  exact h.second.moves.src_ne_dst (Disk.mem_moves hx) (hm.symm.trans hplace.symm)

theorem not_crossing (h : Stages d d₁ d₂ d₃ plan L₁ L₂ L₃)
    (hsame : ∀ b ∈ L₃, d.lookup b.1 = d₂.lookup b.1) :
    ∀ a ∈ L₂, ∀ b ∈ L₃, a.2 ≠ .inside b.1 := by
  intro a ha b hb hab
  obtain ⟨-, ⟨bytes, hbytes, harchive⟩, -⟩ := Disk.mem_rarPlan (h.third.sublist.subset hb)
  have hsrc : d₁.lookup a.1 = some bytes := by
    rw [← h.second.read_dst h.sound ha, hab]
    exact hbytes
  have hold : d.lookup b.1 = some bytes := (hsame b hb).trans hbytes
  have hfirst : b.1 ∉ L₁.map (·.1) := by
    intro hkey
    obtain ⟨x, hx, hxb⟩ := List.mem_map.mp hkey
    obtain ⟨bytes', hbytes', -, hmagic, -⟩ := Disk.mem_restorePlan (h.first.sublist.subset hx)
    rw [hxb, hold] at hbytes'
    rw [some.inj hbytes', Disk.not_isArchive hmagic] at harchive
    cases harchive
  have hthere := h.first.lookup_stays hold hfirst
  refine h.not_shifted ha hab (hthere.trans hsrc.symm) (Disk.mem_keys.mp ?_)
  have hdst := h.second.moves.dst_mem_src (Disk.mem_moves ha) (by simp [hab, Disk.read, hthere])
  exact hab ▸ hdst

theorem same_of_evidence (h : Stages d d₁ d₂ d₃ plan L₁ L₂ L₃)
    (hev : ∀ n bytes, d.lookup n = some bytes →
      d₃.read (evidence (L₁ ++ L₂ ++ L₃) n) = some bytes) :
    ∀ b ∈ L₃, d.lookup b.1 = d₂.lookup b.1 := by
  intro b hb
  obtain ⟨hunknown, ⟨bytes, hbytes, -⟩, t, ht, hknown⟩ :=
    Disk.mem_rarPlan (h.third.sublist.subset hb)
  rw [hbytes]
  rcases h.second.exists_src h.sound hbytes with ⟨-, hmid⟩ | ⟨a, ha, hab, hmid⟩
  · rcases h.first.exists_src (Disk.sound_restorePlan d) hmid with ⟨-, hold⟩ | ⟨x, hx, hxb, -⟩
    · exact hold
    · obtain ⟨n, hn, -, -, hno⟩ := h.restored_place hx
      have hnb : n = b.1 := Place.inside.inj (hn.symm.trans hxb)
      exact absurd (List.mem_map_of_mem hb) (hnb ▸ hno)
  · -- the file has been moved in between, and its evidence goes astray
    exfalso
    have hkey : a.1 ∈ L₂.map (·.1) := List.mem_map_of_mem ha
    have hold : d.lookup a.1 = some bytes := by
      rcases h.first.exists_src (Disk.sound_restorePlan d) hmid with ⟨-, hold⟩ | ⟨x, hx, hxa, -⟩
      · exact hold
      · obtain ⟨n, hn, -, hno, -⟩ := h.restored_place hx
        have hna : n = a.1 := Place.inside.inj (hn.symm.trans hxa)
        exact absurd hkey (hna ▸ hno)
    have hevidence := hev a.1 bytes hold
    have hsplit : evidence (L₁ ++ L₂ ++ L₃) a.1 =
        if a.1 ∈ L₃.map (·.1) then lookupLast (moves L₃) (.inside a.1) else .inside b.1 := by
      have happ : moves (L₁ ++ L₂ ++ L₃) = moves L₁ ++ moves L₂ ++ moves L₃ := by simp [moves]
      rw [evidence, happ, lookupLast_append, lookupLast_append]
      simp only [Disk.mem_keys, hkey, if_true, h.second.lookupLast_eq h.sound ha, hab]
    rw [hsplit] at hevidence
    split at hevidence
    · next hagain =>
      obtain ⟨x, hx, hxa⟩ := List.mem_map.mp hagain
      rw [← hxa, h.third.lookupLast_eq (Disk.sound_rarPlan d₂) hx,
        h.third.read_dst (Disk.sound_rarPlan d₂) hx, hxa] at hevidence
      rcases h.second.exists_src h.sound hevidence with ⟨hno, -⟩ | ⟨y, hy, hya, hsame⟩
      · exact hno hkey
      · exact h.not_shifted hy hya (hmid.trans hsame.symm) hkey
    · rcases h.third.exists_src (Disk.sound_rarPlan d₂) hevidence with ⟨hno, -⟩ | ⟨y, hy, hyb, -⟩
      · exact hno (List.mem_map_of_mem hb)
      · obtain ⟨-, -, n, hn, hknown'⟩ := Disk.mem_rarPlan (h.third.sublist.subset hy)
        have hnb : n = b.1 := Place.inside.inj (hn.symm.trans hyb)
        rw [hnb, hunknown] at hknown'
        cases hknown'

theorem inside₁ (h : Stages d d₁ d₂ d₃ plan L₁ L₂ L₃) : ∀ m ∈ L₁, ∃ n, m.2 = .inside n := by
  intro m hm
  obtain ⟨n, hn, -⟩ := h.restored_place hm
  exact ⟨n, hn⟩

theorem inside₃ (h : Stages d d₁ d₂ d₃ plan L₁ L₂ L₃) : ∀ m ∈ L₃, ∃ n, m.2 = .inside n := by
  intro m hm
  obtain ⟨-, -, n, hn, -⟩ := Disk.mem_rarPlan (h.third.sublist.subset hm)
  exact ⟨n, hn⟩

/-- **Renames that stay in the directory and move no file twice are harmless.** -/
theorem harmless (h : Stages d d₁ d₂ d₃ plan L₁ L₂ L₃)
    (hinside : ∀ m ∈ L₂, ∃ n, m.2 = .inside n) (hcross : ∀ a ∈ L₂, ∀ b ∈ L₃, a.2 ≠ .inside b.1) :
    Harmless d d₃ (L₁ ++ L₂ ++ L₃) := by
  obtain ⟨hc₁, ha₁⟩ := h.first.inside h.inside₁
  obtain ⟨hc₂, ha₂⟩ := h.second.inside hinside
  obtain ⟨hc₃, ha₃⟩ := h.third.inside h.inside₃
  refine ⟨?_, ha₃.trans (ha₂.trans ha₁), fun n bytes hn => ?_, fun n bytes hn => ?_⟩
  · rw [hc₃, hc₂, hc₁]
  · have hread : d.read (.inside n) = some bytes := hn
    exact h.all.follow_eq hread
  · have hread : d.read (.inside n) = some bytes := hn
    rw [evidence, h.all.lookupLast_eq (h.once_iff.mpr hcross) (by simp [hread])]
    exact h.all.follow_eq hread

end Stages

theorem mem_rarRename {d : Disk} :
    m ∈ (rarRename d).2 ↔ d.Takes (rarPlan d) m :=
  Disk.mem_run_iff (Disk.sound_rarPlan d) (Disk.apart_rarPlan d)

theorem Stages.barred_of_contents {d d₂ d₃ : Disk} {plan L₁ L₃ : List (Text × Place)}
    {d₁ : Disk} (h : Stages d d₁ d₂ d₃ plan L₁ (Disk.run plan (d₁, [])).2 L₃)
    (hlength : d₃.files.length = d.files.length) {p : List Text}
    (hm : (n, .outside p) ∈ plan) :
    d₁.read (.outside p) ≠ none ∨ d₁.barred (n, .outside p) = true := by
  by_contra hno
  obtain ⟨hfree, hbarred⟩ := not_or.mp hno
  rcases Disk.taken_of_run h.sound hm (Bool.not_eq_true _ ▸ hbarred) with hne | ⟨x, hx, hxp⟩
  · exact hfree hne
  · have h₂ := h.second.lost ⟨x, hx, p, hxp⟩
    have h₁ := h.first.length
    have h₃ := h.third.length
    omega

theorem Stages.inside₂ {d d₁ d₂ d₃ : Disk} {plan L₁ L₂ L₃ : List (Text × Place)}
    (h : Stages d d₁ d₂ d₃ plan L₁ L₂ L₃) (hwithin : ∀ n p, (n, .outside p) ∈ plan →
      d₁.read (.outside p) ≠ none ∨ d₁.barred (n, .outside p) = true) :
    ∀ m ∈ L₂, ∃ n, m.2 = .inside n := by
  rintro ⟨n, pl⟩ hm
  cases pl with
  | inside t => exact ⟨t, rfl⟩
  | outside p =>
    rcases hwithin n p (h.second.sublist.subset hm) with hne | hbarred
    · exact absurd (h.second.moves.dst_mem_src (Disk.mem_moves hm) hne) Disk.outside_not_mem_keys
    · rw [h.second.allowed _ hm] at hbarred
      cases hbarred

/-- **The renames are harmless exactly when the recovery set can be read, its names do
not lead out of the directory, and no archive is moved on from a name of the set.** -/
theorem renamesHarmlessly_iff (md5 : Bytes → Bytes) (d : Disk) :
    RenamesHarmlessly md5 d ↔ Tame md5 d := by
  cases hload : loadDir (restored d) with
  | none =>
    have hnone : parRename md5 d = none := by
      rw [parRename]
      change (loadDir (restored d)).map _ = _
      rw [hload, map_none]
    constructor
    · rintro ⟨d', renames, hrenamed, -⟩
      rw [renamed, hnone] at hrenamed
      cases hrenamed
    · intro h
      have hread := h.readable
      rw [hload] at hread
      cases hread
  | some set =>
    obtain ⟨hpar, hall, hstages⟩ := @stages md5 _ _ hload
    constructor
    · rintro ⟨d', renames, hrenamed, hharmless⟩
      obtain ⟨rfl, rfl⟩ := Prod.mk.inj (Option.some.inj (hall.symm.trans hrenamed))
      refine ⟨by rw [hload]; rfl, ?_, ?_⟩
      · intro set' hset n p hm
        obtain rfl := Option.some.inj (hload.symm.trans hset)
        have hlength := hharmless.contents.length_eq
        rw [List.length_map, List.length_map] at hlength
        exact hstages.barred_of_contents hlength hm
      · intro d' renames hrun n pl htakes
        obtain ⟨rfl, -⟩ := Prod.mk.inj (Option.some.inj (hpar.symm.trans hrun))
        exact hstages.same_of_evidence hharmless.evidence (n, pl) (mem_rarRename.mpr htakes)
    · intro h
      refine ⟨_, _, hall, hstages.harmless (hstages.inside₂ ?_) (hstages.not_crossing ?_)⟩
      · intro n p hm
        cases set with
        | none => cases hm
        | some set => exact h.within set hload n p hm
      · intro b hb
        exact h.once _ _ hpar b.1 b.2 (mem_rarRename.mp hb)

def packet (ptype body : Bytes) : Bytes :=
  par2Magic ++ (UInt8.ofNat (64 + body.length) :: List.replicate 39 0) ++ ptype ++ body

def recoveryFile (hash : Bytes) (name : String) : Bytes :=
  packet packetMain (0 :: 8 :: List.replicate 10 0) ++
    packet packetFileDesc (List.replicate 32 1 ++ hash ++ List.replicate 8 0 ++ ascii name)

/-- The hash of a zip archive without anything behind its magic bytes. -/
def zipHash : Bytes := [16, 137, 63, 215, 207, 246, 109, 202, 25, 63, 101, 140, 169, 67, 141, 21]

/-- This archive, and a recovery file that has a name for it. -/
def zipAnd (name : String) : Disk where
  dir := [text "d"]
  isDir := fun p => p = [] || p = [text "d"]
  files := [(text "a", zipMagic), (text "a.par2", recoveryFile zipHash name)]
  away := fun _ => none
  refuses := fun _ _ => false
  nodup := show [text "a", text "a.par2"].Nodup by decide
  named := show [] ∉ [text "a", text "a.par2"] by decide

/-- A name leads out of the directory; a book is an archive by what is in it, and its
evidence stays behind. -/
theorem escapes_and_goes_astray :
    ¬RenamesHarmlessly (fun _ => zipHash) (zipAnd "../b") ∧
      ¬RenamesHarmlessly (fun _ => zipHash) (zipAnd "b.epub") := by
  constructor
  · rintro ⟨d', renames, hrenamed, h⟩
    have hlost : (renamed (fun _ => zipHash) (zipAnd "../b")).map (·.1.files.length) = some 1 := by
      decide +kernel
    rw [hrenamed] at hlost
    have hone : d'.files.length = 1 := Option.some.inj hlost
    have hlength := h.contents.length_eq
    rw [List.length_map, hone] at hlength
    exact absurd hlength (by decide)
  · rintro ⟨d', renames, hrenamed, h⟩
    have hgone : (renamed (fun _ => zipHash) (zipAnd "b.epub")).map
        (fun st => st.1.read (evidence st.2 (text "a"))) = some none := by
      decide +kernel
    rw [hrenamed] at hgone
    have hnone : d'.read (evidence renames (text "a")) = none := Option.some.inj hgone
    rw [h.evidence (text "a") zipMagic (by decide)] at hnone
    cases hnone

end Nzbd.Post
