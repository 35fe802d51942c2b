import Nzbd.Types
import Nzbd.Lib.Numeral

/-!
# Names

What a job is called, and where it is stored.  The name a client hands over is a
hint and the NZB is evidence: `nameFromEvidence` keeps the hint when it says
something (`isUninformative`), and else asks the meta title, the recovery set
(`par2BaseOf`) and the payload files (`commonStem`) in turn.  `stripNameJunk`
reads a name out of a URL tail, and `requestorName` falls back to who asked.

`sanitizeName` makes a name safe for the file system.  It is never empty, so a
job that has been renamed with its storage has a `dirName`.

Text is read as characters.  The source works on byte offsets, which it always
takes next to ASCII characters; the one exception is `percentDecode`, which
stops the process when the two bytes behind a `%` cut a character, and here
leaves the `%` as it stands.
-/

namespace Nzbd

open Utf8

/-! ### Text -/

def text (s : String) : Text := s.toList

def toAsciiLowercase (s : Text) : Text := s.map Char.toLower

def eqIgnoreAsciiCase (s t : Text) : Bool := toAsciiLowercase s = toAsciiLowercase t

def trimEndMatches (p : Char → Bool) (s : Text) : Text := (s.reverse.dropWhile p).reverse

/-- What stands behind the last character of a class, or the whole text. -/
def afterLast (p : Char → Bool) (s : Text) : Text := (s.reverse.takeWhile fun c => !p c).reverse

def endsWith (s pat : Text) : Bool := pat.isSuffixOf s

def startsWith (s pat : Text) : Bool := pat.isPrefixOf s

/-- Where the last occurrence of a text starts. -/
def rfind (pat : Text) : Text → Option Nat
  | [] => if pat = [] then some 0 else none
  | c :: cs =>
    match rfind pat cs with
    | some n => some (n + 1)
    | none => if startsWith (c :: cs) pat then some 0 else none

/-- The pieces between the characters of a class. -/
def split (p : Char → Bool) : Text → List Text
  | [] => [[]]
  | c :: cs =>
    if p c then [] :: split p cs
    else
      match split p cs with
      | [] => [[c]]
      | w :: ws => (c :: w) :: ws

def isHexDigit (c : Char) : Bool := (Numeral.digitVal 16 c).isSome

/-- `n` in decimal. -/
def showNat (n : Nat) : Text := Nat.toDigits 10 n

theorem showNat_inj {m n : Nat} (h : showNat m = showNat n) : m = n := by
  have hm := Numeral.readDigits_toDigits (.inl rfl) m
  have hn := Numeral.readDigits_toDigits (.inl rfl) n
  rw [showNat, showNat] at h
  rw [h] at hm
  exact Option.some.inj (hm.symm.trans hn)

/-! ### Reading a name out of a URL tail -/

/-- Two hexadecimal digits behind a `%` stand for a byte. -/
def percentBytes : List UInt8 → List UInt8
  | [] => []
  | [b] => [b]
  | [b, c] => [b, c]
  | b :: c :: d :: bs =>
    if b = 0x25 then
      match Numeral.fromStrRadix 16 256 [Char.ofNat c.toNat, Char.ofNat d.toNat] with
      | some v => UInt8.ofNat v :: percentBytes bs
      | none => b :: percentBytes (c :: d :: bs)
    else b :: percentBytes (c :: d :: bs)

def percentDecode (s : Text) : Text :=
  if '%' ∈ s then fromUtf8Lossy (percentBytes (s.flatMap String.utf8EncodeChar)) else s

/-- Does the text behind a `&` start like `key=value`? -/
def paramLike (rest : Text) : Bool :=
  let p := rest.takeWhile (· ≠ '&')
  '=' ∈ p && ' ' ∉ p.takeWhile (· ≠ '=')

/-- Cut at the first `&` that starts a query parameter. -/
def cutParams : Text → Text
  | [] => []
  | c :: rest => if c = '&' ∧ paramLike rest then [] else c :: cutParams rest

def stripSuffix (s ext : Text) : Text :=
  if endsWith s ext then s.take (s.length - ext.length) else s

/-- URL tail to name: cut glued query parameters, decode, drop the extension. -/
def stripNameJunk (raw : Text) : Text :=
  let name := trim raw
  let name :=
    if startsWith name (text "http://") || startsWith name (text "https://") then
      afterLast (· = '/') (name.takeWhile fun c => c ≠ '?' && c ≠ '#')
    else name
  let name := percentDecode (trim (cutParams (name.takeWhile (· ≠ '?'))))
  let name := [text ".nzb", text ".NZB", text ".Nzb"].foldl stripSuffix name
  trim (trimMatches (· = '.') (trim name))

/-! ### Names that say nothing -/

/-- One long word, nearly all of it hexadecimal. -/
def looksObfuscated (name : Text) : Bool :=
  let core := name.filter Char.isAlphanum
  if core.length < 16 || ' ' ∈ name then false
  else
    let hexish := core.countP isHexDigit
    let wordChars := name.countP Char.isAlpha
    core.length * 9 ≤ hexish * 10 && wordChars * 3 < core.length * 2

/-- A long run without a separator. -/
def looksLikeToken (name : Text) : Bool :=
  let n := trim name
  16 ≤ n.length && !n.any (· ∈ text " .-_()[]") && n.all fun c => c.isAlphanum || c ∈ text "+/="

/-- Nothing is left without the `yEnc` marker and the part counters. -/
def isPostingArtifact (name : Text) : Bool :=
  let words := (split (fun c => !c.isAlphanum) name).filter fun t =>
    t ≠ [] && !eqIgnoreAsciiCase t (text "yenc") && !t.all Char.isDigit
  (words.map List.length).sum < 3

def isUninformative (name : Text) : Bool :=
  looksObfuscated name || looksLikeToken name || isPostingArtifact name

def isUninformativeName (name : Text) : Bool :=
  stripNameJunk name = [] || isUninformative (stripNameJunk name)

/-- A candidate is used when a reader learns something from it. -/
def informative (candidate : Text) : Option Text :=
  let c := stripNameJunk candidate
  if c ≠ [] && !isUninformative c then some c else none

/-! ### Evidence -/

/-- The base of the recovery set: the main index, or the first volume. -/
def par2BaseOf : List Text → Option Text := go none
where
  go (best : Option Text) : List Text → Option Text
  | [] => best
  | hint :: hints =>
    if !endsWith (toAsciiLowercase hint) (text ".par2") then go best hints
    else
      let base := hint.take (hint.length - 5)
      match rfind (text ".vol") (toAsciiLowercase base) with
      | some vol => go (best.or (some (base.take vol))) hints
      | none => some base

def commonStart : Text → Text → Text
  | a :: s, b :: t => if a = b then a :: commonStart s t else []
  | _, _ => []

/-- The start all names share; an empty one has no name to give. -/
def commonStartAll : Text → List Text → Option Text
  | start, [] => some start
  | start, n :: ns =>
    if commonStart start n = [] then none else commonStartAll (commonStart start n) ns

/-- A single file names the job by itself, minus its extension. -/
def fileStem (n : Text) : Text :=
  let ext := afterLast (· = '.') n
  if '.' ∈ n && ext.length ≤ 4 && ext.all Char.isAlphanum then n.take (n.length - ext.length - 1)
  else n

/-- Drop the volume counter, the volume word, and the separators. -/
def dropCounter (s : Text) : Text :=
  let sep := fun c => c ∈ text ".-_ "
  let s := trimEndMatches sep (trimEndMatches Char.isDigit s)
  let word := [text ".part", text ".vol", text ".disc", text ".cd", text ".r", text ".s"].find?
    fun w => endsWith (toAsciiLowercase s) w
  trimEndMatches sep (s.take (s.length - (word.getD []).length))

def isPayloadName (n : Text) : Bool :=
  let l := toAsciiLowercase n
  !(endsWith l (text ".par2") || endsWith l (text ".nfo") || endsWith l (text ".sfv"))

/-- The name a set of file names implies: `X.part01.rar` and `X.part02.rar`
give `X`. -/
def commonStem (names : List Text) : Option Text :=
  match names.filter isPayloadName with
  | [] => none
  | [n] => if 4 ≤ (fileStem n).length then some (fileStem n) else none
  | n :: ns =>
    (commonStartAll n ns).bind fun start =>
      if 4 ≤ (dropCounter start).length then some (dropCounter start) else none

def nameFromFiles (names : List Text) : Option Text :=
  [par2BaseOf names, commonStem names].findSome? fun c => c.bind informative

/-! ### The NZB -/

structure ParsedSegment where
  messageId : Text
  number : Nat
  /-- The encoded size the NZB gives. -/
  bytes : Nat

/-- A file of an NZB; the parser sorts its segments and drops duplicates. -/
structure ParsedFile where
  subject : Text
  poster : Option Text := none
  date : Option Int
  groups : List Text := []
  segments : List ParsedSegment
  sorted : (segments.map (·.number)).Pairwise (· < ·)

structure ParsedNzb where
  title : Option Text
  password : Option Text := none
  category : Option Text
  files : List ParsedFile

/-- The quoted part of the subject, or all of it. -/
def ParsedFile.filenameHint (f : ParsedFile) : Text :=
  let behind := (f.subject.dropWhile (· ≠ '"')).drop 1
  let name := trim (behind.takeWhile (· ≠ '"'))
  if '"' ∈ f.subject && '"' ∈ behind && name ≠ [] then name else trim f.subject

def ParsedNzb.names (nzb : ParsedNzb) : List Text := nzb.files.map ParsedFile.filenameHint

/-- The best name the hint and the NZB support between them. -/
def nameFromEvidence (raw : Text) (nzb : ParsedNzb) : Option Text :=
  (informative raw).or <|
    [nzb.title, par2BaseOf nzb.names, commonStem nzb.names].findSome? fun c => c.bind informative

def cleanJobName (raw : Text) (nzb : ParsedNzb) : Text :=
  match nameFromEvidence raw nzb with
  | some name => name
  | none => if stripNameJunk raw = [] then text "download" else stripNameJunk raw

/-! ### Who asked -/

def clientParam : Text := text "*Client"

def urlParam : Text := text "*URL"

def isU32 (l : Text) : Bool := (Numeral.fromStrRadix 10 (2 ^ 32) l).isSome

/-- What stands behind the first `://`, up to the next one. -/
def afterScheme (url : Text) : Text :=
  match url with
  | [] => []
  | c :: cs =>
    if startsWith (c :: cs) (text "://") then upToScheme (cs.drop 2) else afterScheme cs
where
  upToScheme : Text → Text
  | [] => []
  | c :: cs => if startsWith (c :: cs) (text "://") then [] else c :: upToScheme cs

def hasScheme (url : Text) : Bool := (rfind (text "://") url).isSome

/-- The label of a host an operator recognises; none for an address. -/
def urlHost (url : Text) : Option Text :=
  let rest := if hasScheme url then afterScheme url else url
  let host := afterLast (· = '@') (rest.takeWhile fun c => c ∉ text "/?#")
  if startsWith host (text "[") || 1 < host.count ':' then none
  else
    let labels := (split (· = '.') (host.takeWhile (· ≠ ':'))).filter fun l =>
      l ≠ [] && !eqIgnoreAsciiCase l (text "www")
    if labels = [] || labels.all isU32 then none
    else
      let short := (labels.getD (labels.length - 2) []).flatMap String.utf8EncodeChar
      let drop := if 3 ≤ labels.length && short.length ≤ 3 then 2 else 1
      (labels[labels.length - (drop + 1)]?).filter fun l => !isU32 l

def Job.param (job : Job) (k : Text) : Option Text := (job.params.find? (·.1 = k)).map (·.2)

/-- A name for a job whose documents gave none: who asked, and from where. -/
def requestorName (job : Job) : Option Text :=
  let asked := ((job.param clientParam).filter (· ≠ [])).or (job.category.filter (· ≠ []))
  let parts := asked.toList ++ ((job.param urlParam).bind urlHost).toList
  if parts = [] then none
  else
    let ident := stripNameJunk (if job.originalName = [] then job.name else job.originalName)
    let short := ident.take 8
    let last :=
      if short = [] || parts.any (eqIgnoreAsciiCase · short) then '#' :: showNat job.id else short
    some ((text " · ").intercalate (parts ++ [last]))

/-! ### Storage -/

def sanitizeChar (c : Char) : Char :=
  if c ∈ text "/\\:*?\"<>|\x00" || isControl c then '_' else c

/-- A name without path separators and control characters. -/
def sanitizeName (name : Text) : Text :=
  let trimmed := trim (trimMatches (· = '.') (trim (name.map sanitizeChar)))
  (if trimmed = [] then text "unnamed" else trimmed).take 200

theorem sanitizeName_ne_nil (name : Text) : sanitizeName name ≠ [] := by
  unfold sanitizeName
  intro h
  rw [List.take_eq_nil_iff] at h
  rcases h with h | h
  · exact absurd h (by decide)
  · split at h
    · exact absurd h (by decide)
    · contradiction

/-- The directory of a job; one from before the split uses its name. -/
def jobDirName (job : Job) : Text :=
  if job.dirName = [] then sanitizeName job.name else job.dirName

/-- Adopt a better name, and move the storage with it if asked to. -/
def renameJob (job : Job) (newName : Text) (storageToo provisional : Bool) : Job :=
  if newName = [] ∨ newName = job.name then job
  else { job with
    originalName := if job.originalName = [] then job.name else job.originalName
    name := newName
    nameProvisional := provisional
    dirName := if storageToo then sanitizeName newName else job.dirName }

/-- Nothing has named the job yet, or only for the time being. -/
def nameIsOpen (job : Job) : Bool := job.nameProvisional || isUninformativeName job.name

end Nzbd
