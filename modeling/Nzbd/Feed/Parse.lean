import Nzbd.Feed.Filter
import Nzbd.Lib.Calendar

/-!
# Reading a feed

The parser of a feed takes the events of an XML reader one by one.  A start tag may open an item or
a target for text, text and references go to the open target, and every end tag closes it.  An item
is complete at its end tag, where its age is counted from its date.

The age is counted in signed numbers of 64 bits.  `none` is the result where one of them does not
fit: the program stops there, or goes on with another number.

The XML reader is a parameter: its events up to the end of the text or the first error.  Attribute
values come as they are written.
-/

namespace Nzbd.Feed.Parse

abbrev FeedItem := Filter.FeedItem

open Numeral (fromStrRadix fromStrSigned)

/-! ### The age -/

/-- A signed number of 64 bits. -/
def i64 (i : Int) : Option Int := if -2 ^ 63 ≤ i ∧ i < 2 ^ 63 then some i else none

def months : List Text :=
  (["Jan", "Feb", "Mar", "Apr", "May", "Jun", "Jul", "Aug", "Sep", "Oct", "Nov", "Dec"] :
    List String).map String.toList

structure PubDate where
  day : Int
  /-- From one on. -/
  month : Int
  year : Int
  deriving DecidableEq

/-- The first `<day> <Mon> <year>` among the words. -/
def findDate : List Text → Option PubDate
  | day :: month :: year :: rest =>
    match fromStrSigned (2 ^ 63) day, months.findIdx? (·.isPrefixOf month),
      fromStrSigned (2 ^ 63) year with
    | some day, some month, some year => some ⟨day, month + 1, year⟩
    | _, _, _ => findDate (month :: year :: rest)
  | _ => none

def splitWhitespace (s : Text) : List Text := (s.splitOnP Utf8.isWhitespace).filter (· ≠ [])

def dateIn (pubDate : Text) : Option PubDate := findDate (splitWhitespace pubDate)

def subWhen (p : Prop) [Decidable p] (x k : Int) : Option Int := if p then i64 (x - k) else some x

/-- Days from the epoch; divisions of signed numbers round towards zero. -/
def daysFromCivil (date : PubDate) : Option Int := do
  let y ← subWhen (date.month ≤ 2) date.year 1
  let era := (← subWhen (¬0 ≤ y) y 399).tdiv 400
  let yoe ← i64 (y - (← i64 (era * 400)))
  let mp := (date.month + 9).tmod 12
  let doy ← i64 ((← i64 ((153 * mp + 2).tdiv 5 + date.day)) - 1)
  let doe ← i64 (yoe * 365 + yoe.tdiv 4 - yoe.tdiv 100 + doy)
  i64 ((← i64 ((← i64 (era * 146097)) + doe)) - 719468)

def ageOf (date : PubDate) (now : Int) : Option Nat := do
  let age ← i64 (now.tdiv 86400 - (← daysFromCivil date))
  return (min (max age 0) (2 ^ 32 - 1)).toNat

def ageDays (pubDate : Text) (now : Int) : Option Nat :=
  match dateIn pubDate with
  | some date => ageOf date now
  | none => some 0

/-! ### The events -/

structure Attribute where
  /-- The local name. -/
  key : Text
  value : Text

inductive Event
  | start (name : Text) (attributes : List Attribute)
  | empty (name : Text) (attributes : List Attribute)
  | stop (name : Text)
  | text (content : Option Text)
  /-- A reference, and its character if it is the number of one. -/
  | generalRef (name : Text) (char : Option Char)
  | cdata (content : Text)
  | other

inductive TextTarget
  | title
  | link
  | guid
  | category
  | date
  | size
  deriving DecidableEq

structure Cursor where
  cur : Option FeedItem
  pubDate : Text
  textTarget : Option TextTarget
  text : Text

def emptyItem : FeedItem := ⟨[], [], [], [], 0, 0⟩

def Cursor.init : Cursor := ⟨none, [], none, []⟩

def resolveRef (name : Text) : Option Char → Text
  | some ch => [ch]
  | none =>
    if name = text "lt" then ['<']
    else if name = text "gt" then ['>']
    else if name = text "amp" then ['&']
    else if name = text "apos" then ['\'']
    else if name = text "quot" then ['"']
    else '&' :: name ++ [';']

/-- `parse().unwrap_or` -/
def sizeOr (value : Text) (size : Nat) : Nat := (fromStrRadix 10 (2 ^ 64) value).getD size

def href (attributes : List Attribute) : Option Text :=
  (attributes.find? (·.key = text "href")).map (·.value)

def setUrl (url : Text) (item : FeedItem) : FeedItem :=
  if item.url = [] then { item with url := url } else item

def isItem (name : Text) : Bool := name = text "item" || name = text "entry"

/-- The target that a start tag inside of an item opens. -/
def targetOf (name : Text) : Option TextTarget :=
  if name = text "title" then some .title
  else if name = text "guid" || name = text "id" then some .guid
  else if name = text "category" then some .category
  else if name = text "pubDate" || name = text "published" || name = text "updated" then some .date
  else if name = text "size" then some .size
  else none

def onStart (s : Cursor) (name : Text) (attributes : List Attribute) : Cursor :=
  if isItem name then { s with cur := some emptyItem, pubDate := [], text := [] }
  else if name = text "link" && s.cur.isSome then
    match href attributes with
    | some h => { s with cur := s.cur.map (setUrl h), text := [] }
    | none => { s with textTarget := some .link, text := [] }
  else
    match s.cur, targetOf name with
    | some _, some target => { s with textTarget := some target, text := [] }
    | _, _ => { s with text := [] }

def onEnclosure (item : FeedItem) (a : Attribute) : FeedItem :=
  if a.key = text "url" then { item with url := a.value }
  else if a.key = text "length" then { item with size := sizeOr a.value item.size }
  else item

def onAttr (item : FeedItem) (attributes : List Attribute) : FeedItem :=
  let last (key : String) : Text :=
    ((attributes.filter (·.key = text key)).getLast?.map (·.value)).getD []
  if last "name" = text "size" then { item with size := sizeOr (last "value") item.size }
  else if last "name" = text "category" && item.category = [] then
    { item with category := last "value" }
  else item

def onEmpty (item : FeedItem) (name : Text) (attributes : List Attribute) : FeedItem :=
  if name = text "enclosure" then attributes.foldl onEnclosure item
  else if name = text "attr" then onAttr item attributes
  else if name = text "link" then
    match href attributes with
    | some h => setUrl h item
    | none => item
  else item

def setTarget (target : TextTarget) (value : Text) (item : FeedItem) : FeedItem :=
  match target with
  | .title => { item with title := value }
  | .link => setUrl value item
  | .guid => { item with guid := value }
  | .category => if item.category = [] then { item with category := value } else item
  | .date => item
  | .size => { item with size := sizeOr value item.size }

/-- The end of the element with the target. -/
def closeTarget (s : Cursor) : Cursor :=
  match s.textTarget, s.cur with
  | some target, some item =>
    let value := Utf8.trim s.text
    { s with
      textTarget := none
      cur := some (setTarget target value item)
      pubDate := if target = .date then value else s.pubDate }
  | _, _ => { s with textTarget := none }

def withGuid (item : FeedItem) : FeedItem :=
  if item.guid = [] then { item with guid := item.url } else item

/-- What comes of an event, and the item that ends there with its date. -/
def onEvent (s : Cursor) : Event → Cursor × Option (FeedItem × Text)
  | .start name attributes => (onStart s name attributes, none)
  | .empty name attributes => ({ s with cur := s.cur.map (onEmpty · name attributes) }, none)
  | .text content =>
    (if s.textTarget.isSome then { s with text := s.text ++ content.getD [] } else s, none)
  | .generalRef name char =>
    (if s.textTarget.isSome then { s with text := s.text ++ resolveRef name char } else s, none)
  | .cdata content =>
    (if s.textTarget.isSome then { s with text := s.text ++ content } else s, none)
  | .stop name =>
    let s := closeTarget s
    if isItem name then
      ({ s with cur := none }, s.cur.map fun item => (withGuid item, s.pubDate))
    else (s, none)
  | .other => (s, none)

/-- The end of an item. -/
def push (now : Int) (items : List FeedItem) : Option (FeedItem × Text) → Option (List FeedItem)
  | none => some items
  | some (item, pubDate) => do
    let age ← ageDays pubDate now
    return if item.title ≠ [] ∧ item.url ≠ [] then items ++ [{ item with ageDays := age }]
      else items

/-- The loop. -/
def walk (now : Int) : Cursor → List FeedItem → List Event → Option (List FeedItem)
  | _, items, [] => some items
  | s, items, e :: rest => do
    let (s, ended) := onEvent s e
    walk now s (← push now items ended) rest

def parseFeed (reader : Text → List Event) (xml : Text) (now : Int) : Option (List FeedItem) :=
  walk now .init [] (reader xml)

/-! ### Dates that can be counted -/

/-- The year that begins in March. -/
def marchYear (date : PubDate) : Int := if date.month ≤ 2 then date.year - 1 else date.year

/-- The days from the first of March to the first of the month. -/
def monthStart (date : PubDate) : Int := (153 * ((date.month + 9) % 12) + 2) / 5

/-- The day in the calendar, counted from the epoch. -/
def dayNumber (date : PubDate) : Int :=
  Calendar.startOf (marchYear date) + monthStart date + date.day - 719469

def InI64 (i : Int) : Prop := -2 ^ 63 ≤ i ∧ i < 2 ^ 63

/-- The year, the day and the distance from the clock are not too large. -/
structure Fits (date : PubDate) (now : Int) : Prop where
  year : -25252734927766400 ≤ marchYear date ∧ marchYear date < 25252734927766800
  /-- The day is also counted from the first of March, and from March of the last year that 400
  divides. -/
  day : -2 ^ 63 < monthStart date + date.day ∧ monthStart date + date.day < 2 ^ 63 ∧
    Calendar.startOf (marchYear date % 400) + monthStart date + date.day ≤ 2 ^ 63
  number : -2 ^ 63 ≤ dayNumber date ∧ dayNumber date < 2 ^ 63 - 719468
  age : InI64 (now.tdiv 86400 - dayNumber date)

theorem i64_bind_eq_some {α : Type} {x : Int} {f : Int → Option α} {r : α} :
    (i64 x >>= f) = some r ↔ InI64 x ∧ f x = some r := by
  unfold i64 InI64
  split
  · next h => exact ⟨fun h' => ⟨h, h'⟩, fun h' => h'.2⟩
  · next h => exact ⟨fun h' => (by cases h'), fun h' => absurd h'.1 h⟩

theorem i64_eq_some {x r : Int} : i64 x = some r ↔ InI64 x ∧ x = r := by
  unfold i64 InI64
  split
  · next h => exact ⟨fun h' => ⟨h, Option.some.inj h'⟩, fun h' => congrArg some h'.2⟩
  · next h => exact ⟨fun h' => (by cases h'), fun h' => absurd h'.1 h⟩

theorem subWhen_bind_eq_some {α : Type} {p : Prop} [Decidable p] {x k : Int} {f : Int → Option α}
    {r : α} :
    (subWhen p x k >>= f) = some r ↔ (p → InI64 (x - k)) ∧ f (if p then x - k else x) = some r := by
  unfold subWhen
  split
  · next h =>
    exact i64_bind_eq_some.trans (and_congr_left fun _ => ⟨fun hx _ => hx, fun hx => hx h⟩)
  · next h => exact ⟨fun h' => ⟨fun hp => absurd hp h, h'⟩, fun h' => h'.2⟩

/-- **The day number** is counted if the year and the day are small enough. -/
theorem daysFromCivil_eq_some {date : PubDate} (hmonth : 1 ≤ date.month ∧ date.month ≤ 12)
    {n : Int} : daysFromCivil date = some n ↔
      (-25252734927766400 ≤ marchYear date ∧ marchYear date < 25252734927766800) ∧
        (-2 ^ 63 < monthStart date + date.day ∧ monthStart date + date.day < 2 ^ 63 ∧
          Calendar.startOf (marchYear date % 400) + monthStart date + date.day ≤ 2 ^ 63) ∧
        (-2 ^ 63 ≤ dayNumber date ∧ dayNumber date < 2 ^ 63 - 719468) ∧ dayNumber date = n := by
  have hmp : (date.month + 9).tmod 12 = (date.month + 9) % 12 :=
    Int.tmod_eq_emod_of_nonneg (by omega)
  have hdays : (153 * ((date.month + 9) % 12) + 2).tdiv 5 = monthStart date :=
    Int.tdiv_eq_ediv_of_nonneg (by omega)
  have hera (y : Int) : (if ¬0 ≤ y then y - 399 else y).tdiv 400 = y / 400 := by
    rw [ite_not]
    exact Calendar.tdiv_eq_floor (n := 400) (by decide) y
  have hyoe (y : Int) : y - y / 400 * 400 = y % 400 := by omega
  have hfour (y : Int) : (y % 400).tdiv 4 = y % 400 / 4 := Int.tdiv_eq_ediv_of_nonneg (by omega)
  have hhundred (y : Int) : (y % 400).tdiv 100 = y % 400 / 100 :=
    Int.tdiv_eq_ediv_of_nonneg (by omega)
  have hfirst : 0 ≤ monthStart date ∧ monthStart date < 366 := by
    unfold monthStart
    omega
  have hnumber : dayNumber date = marchYear date / 400 * 146097 +
      (marchYear date % 400 * 365 + marchYear date % 400 / 4 - marchYear date % 400 / 100 +
        (monthStart date + date.day - 1)) - 719468 := by
    unfold dayNumber Calendar.startOf
    omega
  have hyear : (if date.month ≤ 2 then date.year - 1 else date.year) = marchYear date := rfl
  have hprevious : date.month ≤ 2 → date.year - 1 = marchYear date := fun h => (if_pos h).symm
  unfold daysFromCivil
  simp only [subWhen_bind_eq_some, i64_bind_eq_some, i64_eq_some, hera, hyoe, hfour, hhundred, hmp,
    hdays, hyear]
  unfold InI64 Calendar.startOf
  omega

/-- **An age is counted** exactly if the numbers fit. -/
theorem ageOf_isSome_iff {date : PubDate} (hmonth : 1 ≤ date.month ∧ date.month ≤ 12) (now : Int) :
    (ageOf date now).isSome ↔ Fits date now := by
  rw [Option.isSome_iff_exists]
  unfold ageOf
  constructor
  · rintro ⟨age, hage⟩
    obtain ⟨days, hdays, hage⟩ := Option.bind_eq_some_iff.mp hage
    obtain ⟨hyear, hday, hnumber, rfl⟩ := (daysFromCivil_eq_some hmonth).mp hdays
    exact ⟨hyear, hday, hnumber, (i64_bind_eq_some.mp hage).1⟩
  · intro h
    have hdays := (daysFromCivil_eq_some hmonth).mpr ⟨h.year, h.day, h.number, rfl⟩
    exact ⟨_, Option.bind_eq_some_iff.mpr ⟨_, hdays, i64_bind_eq_some.mpr ⟨h.age, rfl⟩⟩⟩

theorem month_of_findDate {words : List Text} {date : PubDate} (h : findDate words = some date) :
    1 ≤ date.month ∧ date.month ≤ 12 := by
  fun_induction findDate words with
  | case1 day month year rest d m y hd hm hy =>
    obtain rfl := Option.some.inj h
    have hlt : m < months.length := (List.findIdx?_eq_some_iff_findIdx_eq.mp hm).1
    have hlength : months.length = 12 := rfl
    show 1 ≤ (m : Int) + 1 ∧ (m : Int) + 1 ≤ 12
    omega
  | case2 day month year rest _ ih => exact ih h
  | case3 => cases h

/-- The date in a text, if there is one, can be counted. -/
def DateFits (pubDate : Text) (now : Int) : Prop :=
  ∀ date, dateIn pubDate = some date → Fits date now

theorem ageDays_isSome_iff (pubDate : Text) (now : Int) :
    (ageDays pubDate now).isSome ↔ DateFits pubDate now := by
  unfold ageDays DateFits
  cases hdate : dateIn pubDate with
  | none => exact ⟨fun _ date h => (by cases h), fun _ => rfl⟩
  | some date =>
    refine (ageOf_isSome_iff (month_of_findDate hdate) now).trans ⟨fun h d hd => ?_,
      fun h => h date rfl⟩
    exact Option.some.inj hd ▸ h

/-! ### The items that end -/

/-- The items that end in some events, with their dates. -/
def ended : Cursor → List Event → List (FeedItem × Text)
  | _, [] => []
  | s, e :: rest => (onEvent s e).2.toList ++ ended (onEvent s e).1 rest

/-- What becomes of an item that has ended, when its age is known. -/
def listed (item : FeedItem) (age : Nat) : List FeedItem :=
  if item.title ≠ [] ∧ item.url ≠ [] then [{ item with ageDays := age }] else []

theorem push_some (now : Int) (items : List FeedItem) (p : FeedItem × Text) :
    push now items (some p) = (ageDays p.2 now).map fun age => items ++ listed p.1 age := by
  obtain ⟨item, pubDate⟩ := p
  unfold push listed
  simp only
  cases ageDays pubDate now with
  | none => rfl
  | some age =>
    show some (if _ then _ else _) = some _
    split
    · rfl
    · rw [List.append_nil]

theorem walk_eq (now : Int) (s : Cursor) (items : List FeedItem) (events : List Event) :
    walk now s items events =
      (ended s events).foldlM (fun items p => push now items (some p)) items := by
  induction events generalizing s items with
  | nil => rfl
  | cons e rest ih =>
    rw [walk, ended]
    simp only
    cases (onEvent s e).2 with
    | none => exact ih _ items
    | some p =>
      rw [Option.toList_some, List.singleton_append, List.foldlM_cons]
      exact congrArg (Option.bind _) (funext fun items => ih _ items)

/-- **No number is too large** exactly if the dates of the items can be counted. -/
theorem walk_isSome_iff (now : Int) (s : Cursor) (items : List FeedItem) (events : List Event) :
    (walk now s items events).isSome ↔ ∀ p ∈ ended s events, DateFits p.2 now := by
  rw [walk_eq]
  generalize ended s events = l
  induction l generalizing items with
  | nil => exact ⟨fun _ p hp => (by cases hp), fun _ => rfl⟩
  | cons p l ih =>
    rw [List.foldlM_cons, push_some, List.forall_mem_cons, ← ageDays_isSome_iff]
    cases ageDays p.2 now with
    | none => exact ⟨fun h => (by cases h), fun h => by cases h.1⟩
    | some age => exact (ih _).trans ⟨fun h => ⟨rfl, h⟩, fun h => h.2⟩

end Nzbd.Feed.Parse
