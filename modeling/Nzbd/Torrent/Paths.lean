import Mathlib.Algebra.BigOperators.Group.List.Basic
import Nzbd.Lib.Collisions
import Nzbd.Lib.Utf8
import Nzbd.Types

/-!
# The paths of a torrent

A torrent says where its files go: a payload name, and for each file the components of its path
below it.  Before anything is written the paths are checked one file after the other.  Each
component has to be a plain name on every system, and the collision keys of the files, in which
names that some file system takes for the same are the same, must not collide.

* `validatePathComponent_iff`: the components that are let through.
* `validate_iff`: the torrents that are let through.  The condition on the files does not depend
  on their order.

Case folding and normalization are parameters; nothing is assumed about them.
-/

namespace Nzbd.Torrent.Paths

open List
open Collisions (Clear Entry)

inductive Error
  | engine (message : String)
  | unsafeMetainfoPath (message : String)
  | pathComponentTooLong (size limit : Nat)
  | tooManyFiles (count limit : Nat)
  | pathTooLong (size limit : Nat)
  | pathMetadataTooLarge (size limit : Nat)
  | pathCollision
  deriving DecidableEq

abbrev Bytes := List UInt8

structure Str where
  bytes : Bytes
  chars : Text
  valid : Utf8.fromUtf8 bytes = some chars

structure TorrentFile where
  path : List Bytes
  attr : Option Bytes
  symlinkPath : Option (List Bytes)

structure Info where
  name : Option Bytes
  length : Option Nat
  attr : Option Bytes
  symlinkPath : Option (List Bytes)
  files : Option (List TorrentFile)

inductive FileIteratorName
  | single (name : Option Bytes)
  | tree (path : List Bytes)

structure FileDetails where
  filename : FileIteratorName
  attr : Option Bytes
  symlinkPath : Option (List Bytes)

/-- The attribute `l`. -/
def FileDetails.symlink (f : FileDetails) : Bool := (f.attr.getD []).contains 0x6C

def Info.iterFileDetails (info : Info) : Except Error (List FileDetails) :=
  match info.length, info.files with
  | some _, none => .ok [⟨.single info.name, info.attr, info.symlinkPath⟩]
  | none, some files =>
    if files = [] then .error (.engine "expected multi-file torrent to have at least one file")
    else .ok (files.map fun f => ⟨.tree f.path, f.attr, f.symlinkPath⟩)
  | _, _ => .error (.engine "torrent can't be both in single and multi-file mode")

/-- One component, if it is text. -/
def bit (part : Bytes) : Option Str :=
  match h : Utf8.fromUtf8 part with
  | none => none
  | some s => if s = ['.', '.'] ∨ '/' ∈ s ∨ '\\' ∈ s then none else some ⟨part, s, h⟩

def torrentContent : Bytes := Utf8.ascii "torrent-content"

def FileIteratorName.parts : FileIteratorName → List Bytes
  | .single name => [name.getD torrentContent]
  | .tree path => path

/-- What cannot be used is `none`. -/
def FileIteratorName.iterComponents (filename : FileIteratorName) : List (Option Str) := filename.parts.map bit

/-! ### One component -/

def maxTorrentPathComponentBytes : Nat := 255

def isAsciiAlphabetic (b : UInt8) : Bool := (0x41 ≤ b && b ≤ 0x5A) || (0x61 ≤ b && b ≤ 0x7A)

def hasDrivePrefix : Bytes → Bool
  | letter :: colon :: _ => isAsciiAlphabetic letter && colon == 0x3A
  | _ => false

/-- `<>:"|?*` -/
def windowsReserved : Bytes := [0x3C, 0x3E, 0x3A, 0x22, 0x7C, 0x3F, 0x2A]

def deviceNames : List Text :=
  (["CON", "PRN", "AUX", "NUL", "CLOCK$", "CONIN$", "CONOUT$", "COM1", "COM2", "COM3", "COM4", "COM5", "COM6",
    "COM7", "COM8", "COM9", "COM¹", "COM²", "COM³", "LPT1", "LPT2", "LPT3", "LPT4", "LPT5", "LPT6", "LPT7",
    "LPT8", "LPT9", "LPT¹", "LPT²", "LPT³"] : List String).map String.toList

def isWindowsReservedComponent (component : Text) : Bool :=
  deviceNames.contains (((component.takeWhile (· ≠ '.')).rdropWhile (· = ' ')).map Char.toUpper)

def validatePathComponent (component : Bytes) : Except Error Unit :=
  if component = [] then .error (.unsafeMetainfoPath "path components cannot be empty")
  else if maxTorrentPathComponentBytes < component.length then
    .error (.pathComponentTooLong component.length maxTorrentPathComponentBytes)
  else if 0 ∈ component then .error (.unsafeMetainfoPath "path components cannot contain NUL")
  else if 0x2F ∈ component ∨ 0x5C ∈ component then
    .error (.unsafeMetainfoPath "path components cannot contain platform separators")
  else if component = [0x2E] ∨ component = [0x2E, 0x2E] then
    .error (.unsafeMetainfoPath "dot path components are not allowed")
  else if hasDrivePrefix component then
    .error (.unsafeMetainfoPath "Windows drive prefixes are not allowed")
  else if component.any fun byte => byte < 0x20 || windowsReserved.contains byte then
    .error (.unsafeMetainfoPath "Windows-reserved characters are not allowed")
  else if component.getLast? = some 0x2E ∨ component.getLast? = some 0x20 then
    .error (.unsafeMetainfoPath "path components cannot end with a dot or space")
  else
    match Utf8.fromUtf8 component with
    | none => .error (.unsafeMetainfoPath "path components must contain valid UTF-8")
    | some component =>
      if isWindowsReservedComponent component then
        .error (.unsafeMetainfoPath "Windows device names are not allowed")
      else .ok ()

/-! ### The files -/

def usizeMax : Nat := 2 ^ 64 - 1

def saturatingAdd (a b : Nat) : Nat := min (a + b) usizeMax

structure MetainfoPathLimits where
  files : Nat
  relativePathBytes : Nat
  allPathBytes : Nat

def MetainfoPathLimits.proposal : MetainfoPathLimits where
  files := 100000
  relativePathBytes := 4 * 1024
  allPathBytes := 16 * 1024 * 1024

section

variable (fold nfc : Text → Text)

/-- The dotless i is the same as an `i` for Windows. -/
def portableCollisionKey (component : Text) : Text :=
  nfc ((fold component).map fun
    | 'ı' => 'i'
    | character => character)

/-- The way through the components of a file. -/
structure Walk where
  componentCount : Nat
  relativePathBytes : Nat
  collisionKey : Text
  directoryKeys : List Text

def joinKey (key : Text) (component : Text) : Text :=
  (if key = [] then key else key ++ ['/']) ++ portableCollisionKey fold nfc component

/-- With a separator unless it is the first component. -/
def addBytes (bytes : Nat) (component : Bytes) : Nat :=
  saturatingAdd (if bytes ≠ 0 then saturatingAdd bytes 1 else bytes) component.length

/-- One round of the inner loop; `more` says that another component follows. -/
def component (limits : MetainfoPathLimits) (fileKeys : List Text) (w : Walk) (more : Bool) :
    Option Str → Except Error Walk
  | none => .error (.unsafeMetainfoPath
      "components must be portable UTF-8 names without traversal or separators")
  | some c => do
    validatePathComponent c.bytes
    let key := joinKey fold nfc w.collisionKey c.chars
    let bytes := addBytes w.relativePathBytes c.bytes
    if limits.relativePathBytes < bytes then .error (.pathTooLong bytes limits.relativePathBytes)
    else if more then
      if key ∈ fileKeys then .error .pathCollision
      else .ok ⟨w.componentCount + 1, bytes, key, w.directoryKeys ++ [key]⟩
    else .ok ⟨w.componentCount + 1, bytes, key, w.directoryKeys⟩

/-- The inner loop. -/
def components (limits : MetainfoPathLimits) (fileKeys : List Text) : Walk → List (Option Str) →
    Except Error Walk
  | w, [] => .ok w
  | w, c :: rest => component fold nfc limits fileKeys w (!rest.isEmpty) c >>= fun w =>
    components limits fileKeys w rest

/-- The sets of the outer loop are lists here. -/
structure Seen where
  fileCount : Nat
  allPathBytes : Nat
  fileKeys : List Text
  directoryKeys : List Text

def rejectIf (p : Prop) [Decidable p] (e : Error) : Except Error Unit := if p then .error e else .ok ()

/-- One round of the outer loop. -/
def file (limits : MetainfoPathLimits) (root : Nat × Text) (seen : Seen) (f : FileDetails) :
    Except Error Seen := do
  let fileCount := saturatingAdd seen.fileCount 1
  rejectIf (limits.files < fileCount) (.tooManyFiles fileCount limits.files)
  rejectIf (f.symlink || f.symlinkPath.isSome)
    (.unsafeMetainfoPath "metainfo-declared symlinks are not supported")
  let w ← components fold nfc limits seen.fileKeys ⟨0, root.1, root.2,
    seen.directoryKeys⟩ f.filename.iterComponents
  rejectIf (w.componentCount = 0) (.unsafeMetainfoPath "file paths must contain at least one component")
  rejectIf (w.collisionKey ∈ w.directoryKeys ∨ w.collisionKey ∈ seen.fileKeys) .pathCollision
  let allPathBytes := saturatingAdd seen.allPathBytes w.relativePathBytes
  rejectIf (limits.allPathBytes < allPathBytes) (.pathMetadataTooLarge allPathBytes limits.allPathBytes)
  pure ⟨fileCount, allPathBytes, seen.fileKeys ++ [w.collisionKey], w.directoryKeys⟩

/-- The length and the key of the payload name, for several files. -/
def root (info : Info) (declaredName : Bytes) : Except Error (Nat × Text) :=
  if info.files.isSome then do
    validatePathComponent declaredName
    match Utf8.fromUtf8 declaredName with
    | none => throw (.unsafeMetainfoPath "path components must contain valid UTF-8")
    | some root => pure (declaredName.length, portableCollisionKey fold nfc root)
  else pure (0, [])

def validateMetainfoPathsWithLimits (info : Info) (limits : MetainfoPathLimits) : Except Error Unit :=
  match info.name with
  | none => .error (.unsafeMetainfoPath "torrent metainfo must declare an explicit payload name")
  | some declaredName => do
    let root ← root fold nfc info declaredName
    let files ← info.iterFileDetails
    let _ ← files.foldlM (file fold nfc limits root) ⟨0, 0, [], []⟩

def validateMetainfoPaths (info : Info) : Except Error Unit :=
  validateMetainfoPathsWithLimits fold nfc info .proposal

end

/-! ### The components that are let through -/

/-- The name of a device in any case, spaces, and nothing or whatever follows a dot. -/
def IsDeviceName (component : Text) : Prop := ∃ base n rest,
  component = base ++ List.replicate n ' ' ++ rest ∧ (rest = [] ∨ rest.head? = some '.') ∧
    base.map Char.toUpper ∈ deviceNames

/-- A plain name on every system. -/
structure Safe (component : Bytes) : Prop where
  nonempty : component ≠ []
  short : component.length ≤ maxTorrentPathComponentBytes
  separators : 0x2F ∉ component ∧ 0x5C ∉ component
  dots : component ≠ [0x2E] ∧ component ≠ [0x2E, 0x2E]
  drive : ∀ letter rest, component = letter :: 0x3A :: rest → isAsciiAlphabetic letter = false
  control : ∀ b ∈ component, 0x20 ≤ b
  reserved : ∀ b ∈ component, b ∉ windowsReserved
  last : component.getLast? ≠ some 0x2E ∧ component.getLast? ≠ some 0x20
  text : ∃ s, Utf8.fromUtf8 component = some s ∧ ¬IsDeviceName s

theorem deviceNames_plain : ∀ name ∈ deviceNames, '.' ∉ name ∧ ' ' ∉ name := by decide

theorem rdropWhile_spaces {base : Text} (h : ' ' ∉ base.map Char.toUpper) (n : Nat) :
    (base ++ List.replicate n ' ').rdropWhile (· = ' ') = base := by
  induction n with
  | zero =>
    rw [replicate_zero, append_nil]
    refine rdropWhile_eq_self_iff.mpr fun hne hlast => h (mem_map.mpr ⟨' ', ?_, rfl⟩)
    rw [← of_decide_eq_true hlast]
    exact getLast_mem hne
  | succ n ih =>
    rw [replicate_succ', ← append_assoc, rdropWhile_concat_pos _ _ _ (by simp)]
    exact ih

theorem isWindowsReservedComponent_iff (component : Text) :
    isWindowsReservedComponent component = true ↔ IsDeviceName component := by
  unfold isWindowsReservedComponent
  rw [contains_iff_mem]
  constructor
  · intro h
    obtain ⟨n, hspaces⟩ : ∃ n, (component.takeWhile (· ≠ '.')).rtakeWhile (· = ' ') = replicate n ' ' :=
      ⟨_, eq_replicate_of_mem fun c hc => by simpa using mem_rtakeWhile_imp hc⟩
    refine ⟨_, n, component.dropWhile (· ≠ '.'), ?_, ?_, h⟩
    · rw [← hspaces, rdropWhile_append_rtakeWhile, takeWhile_append_dropWhile]
    · have hhead := head?_dropWhile_not (· ≠ '.') component
      cases hrest : component.dropWhile (· ≠ '.') with
      | nil => exact .inl rfl
      | cons c rest =>
        rw [hrest] at hhead
        obtain rfl : c = '.' := by simpa using hhead
        exact .inr rfl
  · rintro ⟨base, n, rest, rfl, hrest, hbase⟩
    obtain ⟨hdot, hspace⟩ := deviceNames_plain _ hbase
    have hdot' : ∀ c ∈ base ++ replicate n ' ', decide (c ≠ '.') = true := by
      intro c hc
      rcases mem_append.mp hc with hc | hc
      · exact decide_eq_true fun h => hdot (mem_map.mpr ⟨c, hc, by rw [h]; rfl⟩)
      · obtain ⟨_, rfl⟩ := mem_replicate.mp hc
        decide
    have htake : (base ++ replicate n ' ' ++ rest).takeWhile (· ≠ '.') = base ++ replicate n ' ' := by
      rw [takeWhile_append_of_pos hdot']
      rcases hrest with rfl | hrest
      · rw [takeWhile_nil, append_nil]
      · obtain ⟨rest, rfl⟩ := head?_eq_some_iff.mp hrest
        rw [takeWhile_cons_of_neg (by simp), append_nil]
    rw [htake, rdropWhile_spaces hspace]
    exact hbase

theorem hasDrivePrefix_eq_false {component : Bytes} : hasDrivePrefix component = false ↔
    ∀ letter rest, component = letter :: 0x3A :: rest → isAsciiAlphabetic letter = false := by
  unfold hasDrivePrefix
  split
  · next letter colon rest =>
    constructor
    · rintro h letter' rest' heq
      obtain ⟨rfl, rfl, rfl⟩ : letter = letter' ∧ colon = 0x3A ∧ rest = rest' := by simpa using heq
      simpa using h
    · intro h
      cases hc : colon == 0x3A with
      | false => rw [Bool.and_false]
      | true =>
        rw [Bool.and_true]
        exact h letter rest (by rw [beq_iff_eq.mp hc])
  · next hshort => exact ⟨fun _ letter rest heq => absurd heq (hshort letter 0x3A rest), fun _ => rfl⟩

/-- **One component** is let through if it is a plain name. -/
theorem validatePathComponent_iff (component : Bytes) :
    validatePathComponent component = .ok () ↔ Safe component := by
  unfold validatePathComponent
  constructor
  · intro h
    split_ifs at h with h1 h2 h3 h4 h5 h6 h7 h8
    split at h
    · cases h
    · next s hs =>
      split at h
      · cases h
      · next hdevice =>
        obtain ⟨hslash, hback⟩ := not_or.mp h4
        obtain ⟨hdot, hdots⟩ := not_or.mp h5
        obtain ⟨hlast, hlast'⟩ := not_or.mp h8
        have hbytes : ∀ b ∈ component, 0x20 ≤ b ∧ b ∉ windowsReserved := by simpa using h7
        refine ⟨h1, Nat.le_of_not_lt h2, ⟨hslash, hback⟩, ⟨hdot, hdots⟩, ?_, fun b hb => (hbytes b hb).1,
          fun b hb => (hbytes b hb).2, ⟨hlast, hlast'⟩, s, hs, ?_⟩
        · exact hasDrivePrefix_eq_false.mp (Bool.eq_false_iff.mpr h6)
        · exact fun hname => hdevice ((isWindowsReservedComponent_iff s).mpr hname)
  · intro h
    obtain ⟨s, hs, hname⟩ := h.text
    have hnul : (0 : UInt8) ∉ component := fun h0 => absurd (h.control 0 h0) (by decide)
    have hbytes : ¬(component.any fun byte => byte < 0x20 || windowsReserved.contains byte) = true := by
      simpa using fun b hb => ⟨h.control b hb, h.reserved b hb⟩
    rw [if_neg h.nonempty, if_neg (Nat.not_lt.mpr h.short), if_neg hnul, if_neg (not_or.mpr h.separators),
      if_neg (not_or.mpr h.dots), hasDrivePrefix_eq_false.mpr h.drive, if_neg Bool.false_ne_true, if_neg hbytes,
      if_neg (not_or.mpr h.last), hs]
    exact if_neg fun hdevice => hname ((isWindowsReservedComponent_iff s).mp hdevice)

/-! ### One file -/

theorem bind_eq_ok_iff {α β : Type} {x : Except Error α} {f : α → Except Error β} {b : β} :
    (x >>= f) = .ok b ↔ ∃ a, x = .ok a ∧ f a = .ok b := by
  cases x with
  | error e => exact ⟨fun h => (by cases h), fun ⟨_, h, _⟩ => by cases h⟩
  | ok a => exact ⟨fun h => ⟨a, rfl, h⟩, fun ⟨_, h, h'⟩ => Except.ok.inj h ▸ h'⟩

theorem rejectIf_eq_ok_iff {p : Prop} [Decidable p] {e : Error} {u : Unit} : rejectIf p e = .ok u ↔ ¬p := by
  unfold rejectIf
  split
  · next h => exact ⟨fun h' => (by cases h'), fun h' => absurd h h'⟩
  · next h => exact ⟨fun _ => h, fun _ => rfl⟩

theorem bit_eq_some {part : Bytes} {c : Str} (h : bit part = some c) : c.bytes = part := by
  unfold bit at h
  split at h
  · cases h
  · split at h
    · cases h
    · rw [← Option.some.inj h]

/-- A component that can be used. -/
def Admitted (part : Bytes) : Prop := (bit part).isSome ∧ Safe part

section

variable (fold nfc : Text → Text) (limits : MetainfoPathLimits)

/-- The key of a path below a directory. -/
def pathKey (key : Text) (path : List Bytes) : Text :=
  path.foldl (fun key part => joinKey fold nfc key ((Utf8.fromUtf8 part).getD [])) key

def directoryKeys (key : Text) : List Bytes → List Text
  | [] => []
  | part :: rest =>
    let key := joinKey fold nfc key ((Utf8.fromUtf8 part).getD [])
    if rest.isEmpty then [] else key :: directoryKeys key rest

def pathBytes (bytes : Nat) (path : List Bytes) : Nat := path.foldl addBytes bytes

/-- The path is short enough all the way. -/
def Short (bytes : Nat) : List Bytes → Prop
  | [] => True
  | part :: rest => addBytes bytes part ≤ limits.relativePathBytes ∧ Short (addBytes bytes part) rest

variable {limits}

/-- **One component.** -/
theorem component_iff {fileKeys : List Text} {w w' : Walk} {more : Bool} {part : Bytes} :
    component fold nfc limits fileKeys w more (bit part) = .ok w' ↔
      Admitted part ∧ addBytes w.relativePathBytes part ≤ limits.relativePathBytes ∧
      (more → joinKey fold nfc w.collisionKey ((Utf8.fromUtf8 part).getD []) ∉ fileKeys) ∧
      w' = ⟨w.componentCount + 1, addBytes w.relativePathBytes part,
        joinKey fold nfc w.collisionKey ((Utf8.fromUtf8 part).getD []),
        w.directoryKeys ++
          if more then [joinKey fold nfc w.collisionKey ((Utf8.fromUtf8 part).getD [])] else []⟩ := by
  unfold Admitted
  cases hc : bit part with
  | none => exact ⟨fun h => (by cases h), fun h => by cases h.1.1⟩
  | some c =>
    obtain rfl := bit_eq_some hc
    rw [c.valid, component, bind_eq_ok_iff]
    simp only [Option.getD_some, Option.isSome_some, true_and]
    constructor
    · rintro ⟨_, hvalid, h⟩
      refine ⟨(validatePathComponent_iff c.bytes).mp hvalid, ?_⟩
      split_ifs at h with hlong hmore hkey
      · cases Except.ok.inj h
        exact ⟨Nat.le_of_not_lt hlong, fun _ => hkey, by rw [if_pos hmore]⟩
      · cases Except.ok.inj h
        exact ⟨Nat.le_of_not_lt hlong, fun h => absurd h hmore, by rw [if_neg hmore, append_nil]⟩
    · rintro ⟨hsafe, hshort, hkey, rfl⟩
      refine ⟨(), (validatePathComponent_iff c.bytes).mpr hsafe, ?_⟩
      rw [if_neg (Nat.not_lt.mpr hshort)]
      cases more with
      | false => rw [if_neg Bool.false_ne_true, if_neg Bool.false_ne_true, append_nil]
      | true => rw [if_pos rfl, if_neg (hkey rfl), if_pos rfl]

/-- **The inner loop** collects the keys of the directories. -/
theorem components_iff {fileKeys : List Text} {path : List Bytes} {w w' : Walk} :
    components fold nfc limits fileKeys w (path.map bit) = .ok w' ↔
      (∀ part ∈ path, Admitted part) ∧ Short limits w.relativePathBytes path ∧
      (∀ d ∈ directoryKeys fold nfc w.collisionKey path, d ∉ fileKeys) ∧
      w' = ⟨w.componentCount + path.length, pathBytes w.relativePathBytes path,
        pathKey fold nfc w.collisionKey path,
        w.directoryKeys ++ directoryKeys fold nfc w.collisionKey path⟩ := by
  induction path generalizing w with
  | nil =>
    simp only [map_nil, components, directoryKeys, append_nil, Except.ok.injEq]
    constructor
    · rintro rfl
      exact ⟨fun _ h => (by cases h), trivial, fun _ h => (by cases h), rfl⟩
    · rintro ⟨_, _, _, rfl⟩
      rfl
  | cons part rest ih =>
    rw [map_cons, components, bind_eq_ok_iff]
    constructor
    · rintro ⟨w₁, hfirst, hrest⟩
      obtain ⟨hadmitted, hshort, hkey, rfl⟩ := (component_iff fold nfc).mp hfirst
      obtain ⟨hadmitted', hshort', hkeys, rfl⟩ := ih.mp hrest
      refine ⟨forall_mem_cons.mpr ⟨hadmitted, hadmitted'⟩, ⟨hshort, hshort'⟩, ?_, ?_⟩
      · unfold directoryKeys
        cases rest with
        | nil => exact fun d hd => by cases hd
        | cons next rest => exact forall_mem_cons.mpr ⟨hkey rfl, hkeys⟩
      · rw [directoryKeys, length_cons, append_assoc]
        congr 1
        · show w.componentCount + 1 + rest.length = w.componentCount + (rest.length + 1)
          omega
        · cases rest with
          | nil => rfl
          | cons next rest => rfl
    · rintro ⟨hadmitted, ⟨hshort, hshort'⟩, hkeys, rfl⟩
      rw [forall_mem_cons] at hadmitted
      refine ⟨_, (component_iff fold nfc).mpr ⟨hadmitted.1, hshort, fun hmore => ?_, rfl⟩,
        ih.mpr ⟨hadmitted.2, hshort', fun d hd => hkeys d ?_, ?_⟩⟩
      · cases rest with
        | nil => cases hmore
        | cons next rest => exact hkeys _ mem_cons_self
      · cases rest with
        | nil => cases hd
        | cons next rest => exact mem_cons_of_mem _ hd
      · rw [directoryKeys, length_cons, append_assoc]
        congr 1
        · show w.componentCount + (rest.length + 1) = w.componentCount + 1 + rest.length
          omega
        · cases rest with
          | nil => rfl
          | cons next rest => rfl

end

/-! ### All files -/

theorem saturatingAdd_min (a b : Nat) : saturatingAdd (min a usizeMax) b = min (a + b) usizeMax := by
  unfold saturatingAdd
  omega

section

variable (fold nfc : Text → Text) (limits : MetainfoPathLimits) (root : Nat × Text)

/-- The names of a file. -/
def entry (f : FileDetails) : Entry Text where
  own := pathKey fold nfc root.2 f.filename.parts
  above := directoryKeys fold nfc root.2 f.filename.parts

/-- What is asked of a file by itself. -/
structure Alone (f : FileDetails) : Prop where
  link : f.symlink = false ∧ f.symlinkPath = none
  nonempty : f.filename.parts ≠ []
  admitted : ∀ part ∈ f.filename.parts, Admitted part
  short : Short limits root.1 f.filename.parts

def totalBytes (files : List FileDetails) : Nat := (files.map fun f => pathBytes root.1 f.filename.parts).sum

/-- What has been seen after some files. -/
def after (files : List FileDetails) : Seen where
  fileCount := min files.length usizeMax
  allPathBytes := min (totalBytes root files) usizeMax
  fileKeys := (files.map (entry fold nfc root)).map (·.own)
  directoryKeys := (files.map (entry fold nfc root)).flatMap (·.above)

/-- What is asked of the files. -/
structure Passes (files : List FileDetails) : Prop where
  alone : ∀ f ∈ files, Alone limits root f
  count : min files.length usizeMax ≤ limits.files
  total : min (totalBytes root files) usizeMax ≤ limits.allPathBytes
  clear : Clear (files.map (entry fold nfc root))

variable {limits root}

theorem file_iff {files : List FileDetails} {f : FileDetails} {seen : Seen} :
    file fold nfc limits root (after fold nfc root files) f = .ok seen ↔
      Alone limits root f ∧ min (files ++ [f]).length usizeMax ≤ limits.files ∧
      min (totalBytes root (files ++ [f])) usizeMax ≤ limits.allPathBytes ∧
      Collisions.Fits ((files.map (entry fold nfc root)).map (·.own))
        ((files.map (entry fold nfc root)).flatMap (·.above))
        (entry fold nfc root f) ∧
      seen = after fold nfc root (files ++ [f]) := by
  have hafter : after fold nfc root (files ++ [f]) =
      ⟨saturatingAdd (min files.length usizeMax) 1,
        saturatingAdd (min (totalBytes root files) usizeMax) (pathBytes root.1 f.filename.parts),
        (after fold nfc root files).fileKeys ++ [pathKey fold nfc root.2 f.filename.parts],
        (after fold nfc root files).directoryKeys ++ directoryKeys fold nfc root.2 f.filename.parts⟩ := by
    rw [saturatingAdd_min, saturatingAdd_min]
    simp only [after, totalBytes, map_append, flatMap_append, length_append, sum_append]
    simp [entry]
  have hcount : min (files ++ [f]).length usizeMax = saturatingAdd (min files.length usizeMax) 1 :=
    congrArg Seen.fileCount hafter
  have htotal : min (totalBytes root (files ++ [f])) usizeMax =
      saturatingAdd (min (totalBytes root files) usizeMax) (pathBytes root.1 f.filename.parts) :=
    congrArg Seen.allPathBytes hafter
  rw [hcount, htotal, hafter]
  unfold file
  simp only [bind_eq_ok_iff, rejectIf_eq_ok_iff, exists_const, FileIteratorName.iterComponents, components_iff]
  constructor
  · rintro ⟨hfiles, hlink, w, ⟨hadmitted, hshort, hdirs, rfl⟩, hnonempty, hkey, htotal, hseen⟩
    obtain ⟨hlink, hpath⟩ := Bool.or_eq_false_iff.mp (Bool.eq_false_iff.mpr hlink)
    obtain ⟨hkeyDir, hkeyFile⟩ := not_or.mp hkey
    simp only [Nat.zero_add, length_eq_zero_iff] at hnonempty
    rw [mem_append, not_or] at hkeyDir
    refine ⟨⟨⟨hlink, ?_⟩, hnonempty, hadmitted, hshort⟩, Nat.le_of_not_lt hfiles, Nat.le_of_not_lt htotal,
      ⟨hdirs, hkeyDir.symm, hkeyFile⟩, (Except.ok.inj hseen).symm⟩
    exact Option.not_isSome_iff_eq_none.mp (Bool.eq_false_iff.mp hpath)
  · rintro ⟨⟨⟨hlink, hpath⟩, hnonempty, hadmitted, hshort⟩, hfiles, htotal, hfits, rfl⟩
    refine ⟨Nat.not_lt.mpr hfiles, by rw [hlink, hpath]; exact Bool.false_ne_true, _,
      ⟨hadmitted, hshort, hfits.above_own, rfl⟩, ?_, not_or.mpr ⟨?_, hfits.own_own⟩, Nat.not_lt.mpr htotal, rfl⟩
    · simpa using hnonempty
    · rw [mem_append, not_or]
      exact hfits.own_above.symm

/-- **All files**, one after the other. -/
theorem files_iff {files : List FileDetails} {seen : Seen} :
    files.foldlM (file fold nfc limits root) ⟨0, 0, [], []⟩ = .ok seen ↔
      Passes fold nfc limits root files ∧ seen = after fold nfc root files := by
  induction files using reverseRecOn generalizing seen with
  | nil =>
    constructor
    · intro h
      cases Except.ok.inj h
      exact ⟨⟨fun _ h => (by cases h), Nat.zero_le _, Nat.zero_le _, Collisions.clear_nil⟩, rfl⟩
    · rintro ⟨_, rfl⟩
      rfl
  | append_singleton files f ih =>
    rw [foldlM_append, bind_eq_ok_iff]
    have hone : ∀ s, [f].foldlM (file fold nfc limits root) s = file fold nfc limits root s f := fun s => by
      rw [foldlM_cons]
      cases file fold nfc limits root s f <;> rfl
    have hclear : Clear ((files ++ [f]).map (entry fold nfc root)) ↔ _ :=
      (congrArg (fun l => Clear l) (map_append ..)).to_iff.trans Collisions.clear_concat
    constructor
    · rintro ⟨_, hbefore, hlast⟩
      obtain ⟨hpasses, rfl⟩ := ih.mp hbefore
      rw [hone] at hlast
      obtain ⟨halone, hcount, htotal, hfits, rfl⟩ := (file_iff fold nfc).mp hlast
      refine ⟨⟨fun g hg => ?_, hcount, htotal, hclear.mpr ⟨hpasses.clear, hfits⟩⟩, rfl⟩
      rcases mem_append.mp hg with hg | hg
      · exact hpasses.alone g hg
      · exact mem_singleton.mp hg ▸ halone
    · rintro ⟨hpasses, rfl⟩
      obtain ⟨hbefore, hfits⟩ := hclear.mp hpasses.clear
      have hcount := hpasses.count
      have htotal := hpasses.total
      refine ⟨after fold nfc root files, ih.mpr ⟨⟨fun g hg => hpasses.alone g (mem_append_left _ hg), ?_, ?_,
        hbefore⟩, rfl⟩, ?_⟩
      · rw [length_append] at hcount
        omega
      · rw [totalBytes, map_append, sum_append] at htotal
        rw [totalBytes]
        omega
      · rw [hone]
        exact (file_iff fold nfc).mpr
          ⟨hpasses.alone f (mem_append_right _ (mem_singleton_self f)), hcount, htotal, hfits, rfl⟩

/-- **In any order.** -/
theorem passes_perm {files files' : List FileDetails} (h : files.Perm files') :
    Passes fold nfc limits root files ↔ Passes fold nfc limits root files' := by
  have hforward : ∀ {files files' : List FileDetails}, files.Perm files' →
      Passes fold nfc limits root files → Passes fold nfc limits root files' := by
    intro files files' h hp
    have htotal : totalBytes root files' = totalBytes root files := (h.map _).sum_eq.symm
    exact ⟨fun f hf => hp.alone f (h.mem_iff.mpr hf), h.length_eq ▸ hp.count, htotal.symm ▸ hp.total,
      (Collisions.clear_perm (h.map _)).mp hp.clear⟩
  exact ⟨hforward h, hforward h.symm⟩

/-- **The torrents that are let through.** -/
theorem validate_iff (info : Info) : validateMetainfoPathsWithLimits fold nfc info limits = .ok () ↔
    ∃ declaredName r files, info.name = some declaredName ∧ Paths.root fold nfc info declaredName = .ok r ∧
      info.iterFileDetails = .ok files ∧ Passes fold nfc limits r files := by
  unfold validateMetainfoPathsWithLimits
  cases info.name with
  | none => exact ⟨fun h => (by cases h), fun ⟨_, _, _, h, _⟩ => by cases h⟩
  | some declaredName =>
    simp only [bind_eq_ok_iff, files_iff]
    constructor
    · rintro ⟨r, hroot, files, hfiles, _, ⟨hpasses, _⟩, _⟩
      exact ⟨declaredName, r, files, rfl, hroot, hfiles, hpasses⟩
    · rintro ⟨_, r, files, hname, hroot, hfiles, hpasses⟩
      obtain rfl := Option.some.inj hname
      exact ⟨r, hroot, files, hfiles, _, ⟨hpasses, rfl⟩, rfl⟩

end

/-! ### What an accepted torrent is like -/

/-- The components of each file below the payload name. -/
def Info.paths (info : Info) : List (List Bytes) :=
  match info.files with
  | some files => files.map (·.path)
  | none => [[info.name.getD torrentContent]]

theorem paths_of_iterFileDetails {info : Info} {files : List FileDetails}
    (h : info.iterFileDetails = .ok files) :
    info.paths = files.map (·.filename.parts) := by
  unfold Info.iterFileDetails at h
  unfold Info.paths
  split at h
  · next hfiles =>
    rw [hfiles]
    cases Except.ok.inj h
    rfl
  · next hfiles =>
    rw [hfiles]
    split at h
    · cases h
    · cases Except.ok.inj h
      rw [map_map]
      rfl
  · cases h

section

variable (fold nfc : Text → Text)

theorem joinKey_length {key : Text} (h : key ≠ []) (component : Text) :
    key.length < (joinKey fold nfc key component).length := by
  unfold joinKey
  rw [if_neg h, length_append, length_append, length_singleton]
  omega

theorem pathKey_length {key : Text} (h : key ≠ []) (path : List Bytes) (hpath : path ≠ []) :
    key.length < (pathKey fold nfc key path).length := by
  induction path generalizing key with
  | nil => exact absurd rfl hpath
  | cons part rest ih =>
    have hfirst := joinKey_length fold nfc h ((Utf8.fromUtf8 part).getD [])
    cases rest with
    | nil => exact hfirst
    | cons next rest =>
      exact hfirst.trans (ih (ne_nil_of_length_pos (Nat.zero_lt_of_lt hfirst)) (cons_ne_nil _ _))

theorem mem_directoryKeys (key : Text) {dir path : List Bytes} (hdir : dir ≠ []) (hne : dir ≠ path)
    (h : dir <+: path) : pathKey fold nfc key dir ∈ directoryKeys fold nfc key path := by
  induction dir generalizing key path with
  | nil => exact absurd rfl hdir
  | cons part dir ih =>
    obtain ⟨rest, rfl⟩ := h
    have hrest : ¬(dir ++ rest).isEmpty = true := by
      intro hempty
      obtain ⟨rfl, rfl⟩ := append_eq_nil_iff.mp (isEmpty_iff.mp hempty)
      exact hne (append_nil _).symm
    rw [cons_append, directoryKeys, if_neg hrest]
    cases dir with
    | nil => exact mem_cons_self
    | cons next dir =>
      refine mem_cons_of_mem _ (ih _ (cons_ne_nil _ _) (fun heq => hne ?_) (prefix_append _ _))
      exact congrArg (part :: ·) heq

/-- The key of the payload directory; a single file has none. -/
def rootKey (info : Info) : Text :=
  if info.files.isSome then portableCollisionKey fold nfc ((Utf8.fromUtf8 (info.name.getD [])).getD []) else []

def fullKey (info : Info) (path : List Bytes) : Text := pathKey fold nfc (rootKey fold nfc info) path

structure Accepted (info : Info) : Prop where
  name : ∃ declaredName, info.name = some declaredName ∧ (info.files.isSome → Safe declaredName)
  safe : ∀ path ∈ info.paths, path ≠ [] ∧ ∀ part ∈ path, Safe part
  distinct : info.paths.Pairwise fun p q => fullKey fold nfc info p ≠ fullKey fold nfc info q
  apart : ∀ p ∈ info.paths, ∀ q ∈ info.paths, ∀ dir, dir ≠ [] → dir ≠ q → dir <+: q →
    fullKey fold nfc info p ≠ fullKey fold nfc info dir
  /-- Folding does not leave a name empty. -/
  root : rootKey fold nfc info ≠ [] → ∀ p ∈ info.paths, fullKey fold nfc info p ≠ rootKey fold nfc info

theorem root_eq_ok {info : Info} {declaredName : Bytes} {r : Nat × Text} (hname : info.name = some declaredName)
    (h : root fold nfc info declaredName = .ok r) :
    r.2 = rootKey fold nfc info ∧ (info.files.isSome → Safe declaredName) := by
  unfold root at h
  unfold rootKey
  rw [hname]
  split at h
  · next hfiles =>
    obtain ⟨_, hvalid, h⟩ := bind_eq_ok_iff.mp h
    have hsafe := (validatePathComponent_iff declaredName).mp hvalid
    obtain ⟨s, hs, _⟩ := hsafe.text
    rw [hs] at h
    cases Except.ok.inj h
    rw [if_pos hfiles, Option.getD_some, hs, Option.getD_some]
    exact ⟨rfl, fun _ => hsafe⟩
  · next hfiles =>
    cases Except.ok.inj h
    rw [if_neg hfiles]
    exact ⟨rfl, fun h => absurd h hfiles⟩

theorem accepted_of_validate {info : Info} {limits : MetainfoPathLimits}
    (h : validateMetainfoPathsWithLimits fold nfc info limits = .ok ()) : Accepted fold nfc info := by
  obtain ⟨declaredName, r, files, hname, hroot, hfiles, hpasses⟩ := (validate_iff fold nfc info).mp h
  obtain ⟨hkey, hsafe⟩ := root_eq_ok fold nfc hname hroot
  have hpaths := paths_of_iterFileDetails hfiles
  have hmem : ∀ p ∈ info.paths, ∃ f ∈ files, f.filename.parts = p := by
    rw [hpaths]
    exact fun p hp => mem_map.mp hp
  have hplain : ∀ path ∈ info.paths, path ≠ [] ∧ ∀ part ∈ path, Safe part := by
    intro path hpath
    obtain ⟨f, hf, rfl⟩ := hmem path hpath
    exact ⟨(hpasses.alone f hf).nonempty, fun part hpart => ((hpasses.alone f hf).admitted part hpart).2⟩
  refine ⟨⟨declaredName, hname, hsafe⟩, hplain, ?_, ?_, ?_⟩
  · rw [hpaths, pairwise_map]
    have hdistinct := pairwise_map.mp hpasses.clear.distinct
    unfold fullKey
    rw [← hkey]
    exact hdistinct
  · intro p hp q hq dir hdir hne hle heq
    obtain ⟨f, hf, rfl⟩ := hmem p hp
    obtain ⟨g, hg, rfl⟩ := hmem q hq
    have hmemDir := mem_directoryKeys fold nfc (rootKey fold nfc info) hdir hne hle
    refine hpasses.clear.apart _ (mem_map_of_mem hf) _ (mem_map_of_mem hg) ?_
    unfold entry
    rw [hkey]
    unfold fullKey at heq
    rw [← heq] at hmemDir
    exact hmemDir
  · intro hnonempty p hp heq
    exact absurd (congrArg length heq) (pathKey_length fold nfc hnonempty p (hplain p hp).1).ne'

/-- **Accepted paths are safe and do not collide**, and the verdict does not depend on the order
of the files. -/
theorem validateMetainfoPaths_sound (info : Info) :
    (validateMetainfoPaths fold nfc info = .ok () → Accepted fold nfc info) ∧
    ∀ files files', files.Perm files' →
      (validateMetainfoPaths fold nfc { info with files := some files } = .ok () ↔
      validateMetainfoPaths fold nfc { info with files := some files' } = .ok ()) := by
  refine ⟨accepted_of_validate fold nfc, ?_⟩
  have hforward : ∀ {files files' : List TorrentFile}, files.Perm files' →
      validateMetainfoPaths fold nfc { info with files := some files } = .ok () →
      validateMetainfoPaths fold nfc { info with files := some files' } = .ok () := by
    intro files files' hperm h
    obtain ⟨declaredName, r, details, hname, hroot, hdetails, hpasses⟩ := (validate_iff fold nfc _).mp h
    unfold Info.iterFileDetails at hdetails
    simp only at hdetails
    split at hdetails
    · next h => cases h
    · next hlength hfiles =>
      obtain rfl := Option.some.inj hfiles
      split at hdetails
      · cases hdetails
      · next hne =>
        cases Except.ok.inj hdetails
        refine (validate_iff fold nfc _).mpr ⟨declaredName, r, _, hname, hroot, ?_,
          (passes_perm fold nfc (hperm.map _)).mp hpasses⟩
        unfold Info.iterFileDetails
        simp only [hlength]
        exact if_neg fun hnil : files' = [] => hne (List.Perm.eq_nil (hnil ▸ hperm))
    · cases hdetails
  exact fun files files' hperm => ⟨hforward hperm, hforward hperm.symm⟩

/-- The control character `DEL` is let through. -/
theorem delete_accepted : ¬∀ (fold nfc : Text → Text) (info : Info),
    validateMetainfoPaths fold nfc info = .ok () →
    ∀ path ∈ info.paths, ∀ part ∈ path, ∀ s, Utf8.fromUtf8 part = some s → ∀ c ∈ s,
      Utf8.isControl c = false := by
  intro h
  have hcontrol := h id id ⟨some [0x61, 0x7F], some 1, none, none, none⟩ (by decide +kernel) [[0x61, 0x7F]]
    (mem_singleton_self _) [0x61, 0x7F] (mem_singleton_self _) ['a', '\x7F'] (by decide +kernel) '\x7F'
    (mem_cons_of_mem _ (mem_singleton_self _))
  revert hcontrol
  decide

end

end Nzbd.Torrent.Paths
