import Nzbd.Feed.Poll

/-!
# An item is queued once

What a ledger shared by several polls is to give, as a property of what happened (`Exact`):
an item is not handed to the queue while an earlier copy stands (`InQueue`: added, and listed
by every poll of its feed since), a save loses no entry but those of its own feed that are too
old, and a later poll does not pass over an item that could not be added (`Missed`).

The polls do not give it: a poll writes back what it has read before its first item, it takes a
file that it cannot read for an empty ledger, it drops an entry for its age alone, and it enters
an item that could not be added.  `Careful` is what a run has to avoid, and `exact_of_run` that
nothing else goes wrong.

* `Inv.held`: an item in the queue is in the ledger, or its poll is still on its way.
* `Inv.copies`: a poll that has read the present ledger knows of it.
* `Inv.missed`: an item that is missed is not in the ledger.
-/

namespace Nzbd.Feed

open Log
open Runs (Run)

section

variable {ι : Type*} (feeds : ι → FeedDef)

/-! ### What is to hold -/

def Held (i : ι) (guid : Text) : List (Event ι) → Prop :=
  Since (fun e _ => e = .added i guid) fun e => ∃ guids, e = .polled i guids ∧ guid ∉ guids

def InQueue (name guid : Text) (log : List (Event ι)) : Prop :=
  ∃ i, (feeds i).name = name ∧ Held i guid log

/-- It could not be added when it was not in the queue, and has not been added since. -/
def Missed (name guid : Text) : List (Event ι) → Prop :=
  Since (fun e before => (∃ i, e = .failed i guid ∧ (feeds i).name = name) ∧
    ¬InQueue feeds name guid before) fun e => ∃ i, e = .added i guid ∧ (feeds i).name = name

/-- The log before the last poll of a feed. -/
def beforePoll [DecidableEq ι] (f : ι) : List (Event ι) → List (Event ι)
  | [] => []
  | .polled i _ :: log => if i = f then log else beforePoll f log
  | _ :: log => beforePoll f log

def Exact [DecidableEq ι] (e : Event ι) (before : List (Event ι)) : Prop :=
  match e with
  | .added f guid => ¬InQueue feeds (feeds f).name guid before
  | .saved f now old new => ∀ name, ∀ e ∈ entry old name,
      e ∈ entry new name ∨ (name = (feeds f).name ∧ seenRetentionSecs ≤ now - e.2)
  | .passed f guid again => again = false →
      ¬Missed feeds (feeds f).name guid (beforePoll f before)
  | .polled .. => True
  | .failed .. => True

/-! ### What a run has to avoid -/

def Listed (seen : Seen) (guid : Text) : Prop := ∃ t, (guid, t) ∈ seen

/-- A poll reads the ledger, and drops no entry of an item that is in the queue.  It adds an item
only while the ledger is as it has read it and no other poll of its name has added the item; an
item that cannot be added is not in the ledger.  It saves while the ledger is as it has read it,
and without an item that was missed; and it does not end otherwise once it has added something. -/
def Careful (s : Pollers ι) : Input ι → Prop
  | .begin f now items read => (read = false → s.ledger = []) ∧
      ∀ e ∈ entry s.ledger (feeds f).name, seenRetentionSecs ≤ now - e.2 →
        ¬InQueue feeds (feeds f).name e.1 (.polled f (items.map (·.guid)) :: s.log)
  | .handle f ok => ∀ p item items, s.running f = some p → p.items = item :: items →
      item.verdict.isSome → ¬Listed (entry p.doc (feeds f).name) item.guid →
      if ok then p.version = s.version ∧ ∀ k q, k ≠ f → s.running k = some q →
        (feeds k).name = (feeds f).name → item.guid ∉ q.added
      else ¬Listed (entry s.ledger (feeds f).name) item.guid
  | .save f landed => ∀ p, s.running f = some p →
      if landed then p.version = s.version ∧
        ∀ guid ∈ p.marked, ¬Missed feeds (feeds f).name guid s.log
      else p.added = []
  | .stop f => ∀ p, s.running f = some p → p.added = []

/-! ### The ledger -/

theorem containsKey_iff {seen : Seen} {guid : Text} :
    containsKey seen guid = true ↔ Listed seen guid := by
  simp [containsKey, Listed]

@[simp] theorem entry_putEntry (doc : SeenDoc) (name : Text) (seen : Seen) :
    entry (putEntry doc name seen) name = seen := by
  have : Table.get Prod.fst (Table.put Prod.fst doc (name, seen)) name = some (name, seen) :=
    Table.get_put_self doc (name, seen)
  simp only [entry, putEntry] at this ⊢
  rw [this]
  rfl

theorem entry_putEntry_of_ne (doc : SeenDoc) {name other : Text} (seen : Seen)
    (h : other ≠ name) : entry (putEntry doc name seen) other = entry doc other := by
  have : Table.get Prod.fst (Table.put Prod.fst doc (name, seen)) other =
      Table.get Prod.fst doc other :=
    Table.get_put_of_ne (r := (name, seen)) fun he => h he.symm
  simp only [entry, putEntry] at this ⊢
  rw [this]

/-! ### What the events say -/

variable {feeds} {i f : ι} {guid guid' name : Text} {log : List (Event ι)}

theorem held_added : Held i guid (.added f guid' :: log) ↔
    (f = i ∧ guid' = guid) ∨ Held i guid log := by
  simp [Held]

theorem held_polled {guids : List Text} : Held i guid (.polled f guids :: log) ↔
    (f = i → guid ∈ guids) ∧ Held i guid log := by
  simp only [Held, since_cons, reduceCtorEq, false_or, Event.polled.injEq]
  refine and_congr_left fun _ => ?_
  constructor
  · rintro h rfl
    by_contra hg
    exact h ⟨guids, ⟨rfl, rfl⟩, hg⟩
  · rintro h ⟨_, ⟨rfl, rfl⟩, hg⟩
    exact hg (h rfl)

@[simp] theorem held_failed : Held i guid (.failed f guid' :: log) ↔ Held i guid log := by
  simp [Held]

@[simp] theorem held_passed {again : Bool} :
    Held i guid (.passed f guid' again :: log) ↔ Held i guid log := by simp [Held]

@[simp] theorem held_saved {now : Int} {old new : SeenDoc} :
    Held i guid (.saved f now old new :: log) ↔ Held i guid log := by simp [Held]

@[simp] theorem missed_polled {guids : List Text} :
    Missed feeds name guid (.polled f guids :: log) ↔ Missed feeds name guid log := by
  simp [Missed]

@[simp] theorem missed_passed {again : Bool} :
    Missed feeds name guid (.passed f guid' again :: log) ↔ Missed feeds name guid log := by
  simp [Missed]

@[simp] theorem missed_saved {now : Int} {old new : SeenDoc} :
    Missed feeds name guid (.saved f now old new :: log) ↔ Missed feeds name guid log := by
  simp [Missed]

theorem Missed.of_added (h : Missed feeds name guid (.added f guid' :: log)) :
    Missed feeds name guid log := by
  refine Since.of_cons h ?_
  rintro ⟨⟨_, h, -⟩, -⟩
  cases h

theorem missed_failed (h : Missed feeds name guid (.failed f guid' :: log)) :
    (guid' = guid ∧ (feeds f).name = name) ∨ Missed feeds name guid log := by
  rcases h with ⟨⟨_, h, hname⟩, -⟩ | ⟨-, h⟩
  · cases h
    exact .inl ⟨rfl, hname⟩
  · exact .inr h

/-! ### A poll and its copy -/

variable {p : Poll}

/-- What a poll has done to the ledger it read. -/
structure Copy (name : Text) (p : Poll) : Prop where
  others : ∀ other ≠ name, entry p.doc other = entry p.loaded other
  own : ∀ e, e ∈ entry p.doc name ↔
    (e ∈ entry p.loaded name ∧ p.now - e.2 < seenRetentionSecs) ∨ (e.1 ∈ p.marked ∧ e.2 = p.now)
  fresh : ∀ guid ∈ p.marked, (guid, p.now) ∉ entry p.loaded name
  adds : ∀ guid ∈ p.added, guid ∈ p.marked

theorem Copy.listed_of_marked (h : Copy name p) (hg : guid ∈ p.marked) :
    Listed (entry p.doc name) guid := ⟨p.now, (h.own _).mpr (.inr ⟨hg, rfl⟩)⟩

theorem Copy.listed_of_loaded (h : Copy name p) {t : Int} (ht : (guid, t) ∈ entry p.loaded name)
    (hkept : p.now - t < seenRetentionSecs) : Listed (entry p.doc name) guid :=
  ⟨t, (h.own _).mpr (.inl ⟨ht, hkept⟩)⟩

theorem copy_newPoll (s : Pollers ι) (f : ι) (now : Int) (items : List FeedItem) (doc : SeenDoc) :
    Copy (feeds f).name (s.newPoll feeds f now items doc) where
  others _ hne := entry_putEntry_of_ne _ _ hne
  own e := by simp [Pollers.newPoll, retain]
  fresh _ hg := by cases hg
  adds _ hg := by cases hg

theorem Listed.markItem {g : Text} (h : Listed (entry p.doc name) g) :
    Listed (entry (Pollers.markItem name guid p).doc name) g := by
  obtain ⟨t, ht⟩ := h
  exact ⟨t, by simp [Pollers.markItem, ht]⟩

theorem Copy.markItem (h : Copy name p) (hnew : ¬Listed (entry p.doc name) guid) :
    Copy name (Pollers.markItem name guid p) where
  others other hne := (entry_putEntry_of_ne _ _ hne).trans (h.others other hne)
  own e := by
    simp only [Pollers.markItem, entry_putEntry, List.mem_append, h.own e, List.mem_cons,
      Prod.ext_iff]
    tauto
  fresh g hg hloaded := by
    rcases List.mem_cons.mp hg with rfl | hg
    · -- it would have been kept, since it is of this moment
      refine hnew (h.listed_of_loaded hloaded ?_)
      simp [Pollers.markItem, seenRetentionSecs]
    · exact h.fresh g hg hloaded
  adds g hg := List.mem_cons_of_mem _ (h.adds g hg)

theorem Copy.add (h : Copy name p) (hnew : ¬Listed (entry p.doc name) guid) :
    Copy name (Pollers.markItem name guid { p with added := guid :: p.added }) :=
  let h' := h.markItem hnew
  { others := h'.others
    own := h'.own
    fresh := h'.fresh
    adds := fun g hg => by
      rcases List.mem_cons.mp hg with rfl | hg
      · exact List.mem_cons_self
      · exact List.mem_cons_of_mem _ (h.adds g hg) }

/-! ### The invariant -/

variable (feeds) in
/-- A running poll of the name, other than `f`, has added the item. -/
def AddedBy (s : Pollers ι) (f : ι) (name guid : Text) : Prop :=
  ∃ k q, k ≠ f ∧ s.running k = some q ∧ (feeds k).name = name ∧ guid ∈ q.added

variable (feeds) in
structure Inv [DecidableEq ι] (s : Pollers ι) : Prop where
  copy : ∀ f p, s.running f = some p → Copy (feeds f).name p
  versions : ∀ f p, s.running f = some p → p.version ≤ s.version ∧
    (p.version = s.version → p.loaded = s.ledger)
  held : ∀ name guid, InQueue feeds name guid s.log →
    Listed (entry s.ledger name) guid ∨
      ∃ k q, s.running k = some q ∧ (feeds k).name = name ∧ guid ∈ q.added
  copies : ∀ f p, s.running f = some p → p.version = s.version → ∀ guid,
    InQueue feeds (feeds f).name guid s.log →
      Listed (entry p.doc (feeds f).name) guid ∨ AddedBy feeds s f (feeds f).name guid
  missed : ∀ name guid, Missed feeds name guid s.log → ¬Listed (entry s.ledger name) guid
  begun : ∀ f p, s.running f = some p → ∀ guid,
    Missed feeds (feeds f).name guid (beforePoll f s.log) →
      ¬Listed (entry p.loaded (feeds f).name) guid
  exact : Always (Exact feeds) s.log

theorem InQueue.of_polled {guids : List Text}
    (h : InQueue feeds name guid (.polled f guids :: log)) :
    InQueue feeds name guid log := by
  obtain ⟨i, hname, hi⟩ := h
  exact ⟨i, hname, (held_polled.mp hi).2⟩

theorem inQueue_added (h : InQueue feeds name guid (.added f guid' :: log)) :
    ((feeds f).name = name ∧ guid' = guid) ∨ InQueue feeds name guid log := by
  obtain ⟨i, hname, hi⟩ := h
  rcases held_added.mp hi with ⟨rfl, rfl⟩ | hi
  · exact .inl ⟨hname, rfl⟩
  · exact .inr ⟨i, hname, hi⟩

variable [DecidableEq ι] {s t : Pollers ι}

theorem running_setPoll_of_ne {k : ι} {o : Option Poll} (h : k ≠ f) :
    (s.setPoll f o).running k = s.running k := by simp [Pollers.setPoll, Function.update_of_ne h]

@[simp] theorem running_setPoll {o : Option Poll} : (s.setPoll f o).running f = o := by
  simp [Pollers.setPoll]

theorem inv_start (h : s.Start) : Inv feeds s := by
  obtain ⟨hrunning, hlog⟩ := h
  have hnone (f : ι) (p : Poll) : s.running f ≠ some p := by simp [hrunning f]
  refine ⟨fun f p hp => absurd hp (hnone f p), fun f p hp => absurd hp (hnone f p), ?_,
    fun f p hp => absurd hp (hnone f p), ?_, fun f p hp => absurd hp (hnone f p), ?_⟩
  · rintro name guid ⟨i, -, hi⟩
    rw [hlog] at hi
    exact absurd hi not_since_nil
  · intro name guid h
    rw [hlog] at h
    exact absurd h not_since_nil
  · rw [hlog]
    exact always_nil

omit [DecidableEq ι] in
theorem loadSeen_eq {read : Bool} (h : read = false → s.ledger = []) :
    s.loadSeen read = s.ledger := by
  cases read with
  | true => rfl
  | false => exact (h rfl).symm

theorem inv_begin (h : Inv feeds s) {now : Int} {items : List FeedItem} (hf : s.running f = none)
    (hold : ∀ e ∈ entry s.ledger (feeds f).name, seenRetentionSecs ≤ now - e.2 →
      ¬InQueue feeds (feeds f).name e.1 (.polled f (items.map (·.guid)) :: s.log)) :
    Inv feeds ((s.setPoll f (some (s.newPoll feeds f now items s.ledger))).note
      (.polled f (items.map (·.guid)))) := by
  have hne {k : ι} {q : Poll} (hk : s.running k = some q) : k ≠ f := by
    rintro rfl
    rw [hf] at hk
    cases hk
  have hrunning (k : ι) (q : Poll)
      (hk : (s.setPoll f (some (s.newPoll feeds f now items s.ledger))).running k = some q) :
      (k = f ∧ q = s.newPoll feeds f now items s.ledger) ∨ s.running k = some q := by
    by_cases hkf : k = f
    · subst hkf
      rw [running_setPoll, Option.some_inj] at hk
      exact .inl ⟨rfl, hk.symm⟩
    · exact .inr ((running_setPoll_of_ne hkf).symm.trans hk)
  have hstays {k : ι} {q : Poll} (hk : s.running k = some q) :
      (s.setPoll f (some (s.newPoll feeds f now items s.ledger))).running k = some q :=
    (running_setPoll_of_ne (hne hk)).trans hk
  refine ⟨fun k q hk => ?_, fun k q hk => ?_, fun name guid hq => ?_, fun k q hk hv guid hq => ?_,
    fun name guid hm => h.missed name guid (missed_polled.mp hm), fun k q hk guid hm => ?_,
    ⟨trivial, h.exact⟩⟩
  · rcases hrunning k q hk with ⟨rfl, rfl⟩ | hk
    · exact copy_newPoll s k now items s.ledger
    · exact h.copy k q hk
  · rcases hrunning k q hk with ⟨rfl, rfl⟩ | hk
    · exact ⟨Nat.le_refl _, fun _ => rfl⟩
    · exact h.versions k q hk
  · rcases h.held name guid hq.of_polled with hlisted | ⟨k, q, hk, hname, hg⟩
    · exact .inl hlisted
    · exact .inr ⟨k, q, hstays hk, hname, hg⟩
  · rcases hrunning k q hk with ⟨rfl, rfl⟩ | hk
    · rcases h.held _ guid hq.of_polled with ⟨t, ht⟩ | ⟨j, r, hj, hname, hg⟩
      · left
        refine (copy_newPoll s k now items s.ledger).listed_of_loaded ht ?_
        by_contra hlate
        exact hold (guid, t) ht (by simpa [Pollers.newPoll] using hlate) hq
      · exact .inr ⟨j, r, hne hj, hstays hj, hname, hg⟩
    · rcases h.copies k q hk hv guid hq.of_polled with hl | ⟨j, r, hjk, hj, hname, hg⟩
      · exact .inl hl
      · exact .inr ⟨j, r, hjk, hstays hj, hname, hg⟩
  · rcases hrunning k q hk with ⟨rfl, rfl⟩ | hk
    · have hm : Missed feeds (feeds k).name guid s.log := by
        simpa [Pollers.note, Pollers.setPoll, beforePoll] using hm
      exact h.missed _ _ hm
    · have hkf : f ≠ k := fun he => hne hk he.symm
      refine h.begun k q hk guid ?_
      simpa [Pollers.note, Pollers.setPoll, beforePoll, hkf] using hm

theorem inv_handled (h : Inv feeds s) {q : Poll} (hf : s.running f = some p)
    (ht : t.running = (s.setPoll f (some q)).running) (hfile : t.file = s.file)
    (hversion : t.version = s.version) (hcopy : Copy (feeds f).name q)
    (hsame : q.version = p.version ∧ q.loaded = p.loaded)
    (hgrows : ∀ g, Listed (entry p.doc (feeds f).name) g → Listed (entry q.doc (feeds f).name) g)
    (hadded : ∀ g ∈ p.added, g ∈ q.added)
    (hqueue : ∀ name guid, InQueue feeds name guid t.log →
      ((feeds f).name = name ∧ guid ∈ q.added) ∨ InQueue feeds name guid s.log)
    (hmissed : ∀ name guid, Missed feeds name guid t.log →
      ¬Listed (entry s.ledger name) guid ∨ Missed feeds name guid s.log)
    (hbegun : ∀ k, beforePoll k t.log = beforePoll k s.log)
    (hexact : Always (Exact feeds) t.log) : Inv feeds t := by
  have hledger : t.ledger = s.ledger := by rw [Pollers.ledger, Pollers.ledger, hfile]
  have hself : t.running f = some q := by rw [ht, running_setPoll]
  have hrunning (k : ι) (r : Poll) (hk : t.running k = some r) :
      (k = f ∧ r = q) ∨ (k ≠ f ∧ s.running k = some r) := by
    by_cases hkf : k = f
    · subst hkf
      rw [hself, Option.some_inj] at hk
      exact .inl ⟨rfl, hk.symm⟩
    · exact .inr ⟨hkf, by rw [← hk, ht, running_setPoll_of_ne hkf]⟩
  -- a poll that had added an item still has, as it is now
  have hstays (k : ι) (r : Poll) (g : Text) (hk : s.running k = some r) (hg : g ∈ r.added) :
      ∃ r', t.running k = some r' ∧ g ∈ r'.added := by
    by_cases hkf : k = f
    · subst hkf
      rw [hf, Option.some_inj] at hk
      subst hk
      exact ⟨q, hself, hadded g hg⟩
    · exact ⟨r, by rw [ht, running_setPoll_of_ne hkf, hk], hg⟩
  refine ⟨fun k r hk => ?_, fun k r hk => ?_, fun name guid hq => ?_, fun k r hk hv guid hq => ?_,
    fun name guid hm => ?_, fun k r hk guid hm => ?_, hexact⟩
  · rcases hrunning k r hk with ⟨rfl, rfl⟩ | ⟨-, hk⟩
    · exact hcopy
    · exact h.copy k r hk
  · rw [hversion, hledger]
    rcases hrunning k r hk with ⟨rfl, rfl⟩ | ⟨-, hk⟩
    · rw [hsame.1, hsame.2]
      exact h.versions k p hf
    · exact h.versions k r hk
  · rw [hledger]
    rcases hqueue name guid hq with ⟨hname, hg⟩ | hq
    · exact .inr ⟨f, q, hself, hname, hg⟩
    · rcases h.held name guid hq with hl | ⟨k, r, hk, hname, hg⟩
      · exact .inl hl
      · obtain ⟨r', hk', hg'⟩ := hstays k r guid hk hg
        exact .inr ⟨k, r', hk', hname, hg'⟩
  · rw [hversion] at hv
    rcases hqueue _ guid hq with ⟨hname, hg⟩ | hq
    · rcases hrunning k r hk with ⟨rfl, rfl⟩ | ⟨hkf, -⟩
      · exact .inl (hcopy.listed_of_marked (hcopy.adds guid hg))
      · exact .inr ⟨f, q, hkf.symm, hself, hname, hg⟩
    · have hold : Listed (entry r.doc (feeds k).name) guid ∨
          AddedBy feeds s k (feeds k).name guid := by
        rcases hrunning k r hk with ⟨rfl, rfl⟩ | ⟨-, hk⟩
        · exact (h.copies k p hf (hsame.1 ▸ hv) guid hq).imp_left (hgrows guid)
        · exact h.copies k r hk hv guid hq
      refine hold.imp_right ?_
      rintro ⟨j, r', hjk, hj, hname, hg⟩
      obtain ⟨r'', hj', hg'⟩ := hstays j r' guid hj hg
      exact ⟨j, r'', hjk, hj', hname, hg'⟩
  · rw [hledger]
    rcases hmissed name guid hm with hl | hm
    · exact hl
    · exact h.missed name guid hm
  · rw [hbegun k] at hm
    rcases hrunning k r hk with ⟨rfl, rfl⟩ | ⟨-, hk⟩
    · rw [hsame.2]
      exact h.begun k p hf guid hm
    · exact h.begun k r hk guid hm

theorem inv_handle (h : Inv feeds s) {item : FeedItem} {items : List FeedItem} {ok : Bool}
    (hf : s.running f = some p) (hitems : p.items = item :: items)
    (hok : Careful feeds s (.handle f ok)) :
    Inv feeds (s.handleItem feeds f { p with items := items } item ok) := by
  have hcopy := h.copy f p hf
  have hcopy' : Copy (feeds f).name { p with items := items } :=
    { hcopy with }
  have hcare := hok p item items hf hitems
  simp only [Pollers.handleItem]
  by_cases hnew : Listed (entry p.doc (feeds f).name) item.guid
  · rw [if_pos (containsKey_iff.mpr hnew)]
    have hquiet (log : List (Event ι)) (hexact : Always (Exact feeds) log)
        (hlog : log = s.log ∨ ∃ again, log = .passed f item.guid again :: s.log) :
        Inv feeds { s.setPoll f (some { p with items := items }) with log := log } := by
      refine inv_handled h (q := { p with items := items }) hf rfl rfl rfl hcopy' ⟨rfl, rfl⟩
        (fun _ hg => hg) (fun _ hg => hg) (fun name guid hq => .inr ?_)
        (fun name guid hm => .inr ?_) (fun k => ?_) hexact
      · rcases hlog with rfl | ⟨again, rfl⟩
        · exact hq
        · simpa [InQueue] using hq
      · rcases hlog with rfl | ⟨again, rfl⟩
        · exact hm
        · exact missed_passed.mp hm
      · rcases hlog with rfl | ⟨again, rfl⟩ <;> rfl
    by_cases haccepted : item.verdict.isSome
    · rw [if_pos haccepted]
      refine hquiet (.passed f item.guid (item.guid ∈ p.marked) :: s.log) ⟨fun hagain hm => ?_,
        h.exact⟩ (.inr ⟨_, rfl⟩)
      -- the entry is not of this poll, so it was in the ledger that was read
      obtain ⟨t, ht⟩ := hnew
      rcases (hcopy.own _).mp ht with ⟨hloaded, -⟩ | ⟨hmarked, -⟩
      · exact h.begun f p hf item.guid hm ⟨t, hloaded⟩
      · simp [hmarked] at hagain
    · rw [if_neg haccepted]
      exact hquiet s.log h.exact (.inl rfl)
  · rw [if_neg (fun hc => hnew (containsKey_iff.mp hc))]
    cases hverdict : item.verdict with
    | none =>
      exact inv_handled h hf rfl rfl rfl (hcopy'.markItem hnew) ⟨rfl, rfl⟩ (fun _ hg => hg.markItem)
        (fun _ hg => hg) (fun _ _ hq => .inr hq) (fun _ _ hm => .inr hm) (fun _ => rfl) h.exact
    | some opts =>
      have hcare := hcare (by rw [hverdict]; rfl) hnew
      cases ok with
      | true =>
        obtain ⟨hversion, halone⟩ := hcare
        refine inv_handled h hf rfl rfl rfl (hcopy'.add hnew) ⟨rfl, rfl⟩ (fun _ hg => hg.markItem)
          (fun _ hg => List.mem_cons_of_mem _ hg) (fun name guid hq => ?_)
          (fun name guid hm => .inr hm.of_added) (fun _ => rfl) ⟨fun hq => ?_, h.exact⟩
        · rcases inQueue_added hq with ⟨hname, rfl⟩ | hq
          · exact .inl ⟨hname, List.mem_cons_self⟩
          · exact .inr hq
        · rcases h.copies f p hf hversion item.guid hq with hl | ⟨k, q, hkf, hk, hname, hg⟩
          · exact hnew hl
          · exact halone k q hkf hk hname hg
      | false =>
        refine inv_handled h hf rfl rfl rfl (hcopy'.markItem hnew) ⟨rfl, rfl⟩
          (fun _ hg => hg.markItem) (fun _ hg => hg) (fun name guid hq => .inr ?_)
          (fun name guid hm => ?_) (fun _ => rfl) ⟨trivial, h.exact⟩
        · simpa [InQueue, Pollers.note, Pollers.setPoll] using hq
        · rcases missed_failed hm with ⟨rfl, rfl⟩ | hm
          · exact .inl hcare
          · exact .inr hm

theorem inv_drop (h : Inv feeds s) (hf : s.running f = some p) (hadded : p.added = []) :
    Inv feeds (s.setPoll f none) := by
  have hrunning {k : ι} {q : Poll} (hk : (s.setPoll f none).running k = some q) :
      s.running k = some q := by
    by_cases hkf : k = f
    · subst hkf
      rw [running_setPoll] at hk
      cases hk
    · rwa [running_setPoll_of_ne hkf] at hk
  have hstays {k : ι} {q : Poll} {g : Text} (hk : s.running k = some q) (hg : g ∈ q.added) :
      (s.setPoll f none).running k = some q := by
    have hkf : k ≠ f := by
      rintro rfl
      rw [hf, Option.some_inj] at hk
      subst hk
      rw [hadded] at hg
      cases hg
    rw [running_setPoll_of_ne hkf, hk]
  refine ⟨fun k q hk => h.copy k q (hrunning hk), fun k q hk => h.versions k q (hrunning hk),
    fun name guid hq => ?_, fun k q hk hv guid hq => ?_, h.missed,
    fun k q hk => h.begun k q (hrunning hk), h.exact⟩
  · refine (h.held name guid hq).imp_right ?_
    rintro ⟨k, q, hk, hname, hg⟩
    exact ⟨k, q, hstays hk hg, hname, hg⟩
  · refine (h.copies k q (hrunning hk) hv guid hq).imp_right ?_
    rintro ⟨j, r, hjk, hj, hname, hg⟩
    exact ⟨j, r, hjk, hstays hj hg, hname, hg⟩

theorem inv_landed (h : Inv feeds s) (hf : s.running f = some p) (hversion : p.version = s.version)
    (hmarked : ∀ guid ∈ p.marked, ¬Missed feeds (feeds f).name guid s.log) :
    Inv feeds (s.saveSeen f p true) := by
  have hcopy := h.copy f p hf
  have hloaded : p.loaded = s.ledger := (h.versions f p hf).2 hversion
  have hledger : (s.saveSeen f p true).ledger = p.doc := rfl
  have hrunning {k : ι} {q : Poll} (hk : (s.saveSeen f p true).running k = some q) :
      k ≠ f ∧ s.running k = some q := by
    have hk : (s.setPoll f none).running k = some q := hk
    by_cases hkf : k = f
    · subst hkf
      rw [running_setPoll] at hk
      cases hk
    · exact ⟨hkf, by rwa [running_setPoll_of_ne hkf] at hk⟩
  have hstays {k : ι} {q : Poll} (hkf : k ≠ f) (hk : s.running k = some q) :
      (s.saveSeen f p true).running k = some q := (running_setPoll_of_ne hkf).trans hk
  -- a poll that still has the ledger's version has read what is saved
  have hsame {q : Poll} (hq : q.version ≤ s.version)
      (hv : q.version = (s.saveSeen f p true).version) :
      q.version = s.version ∧ p.doc = s.ledger := by
    have hv : q.version = if p.doc = s.ledger then s.version else s.version + 1 := hv
    split at hv
    · next hdoc => exact ⟨hv, hdoc⟩
    · omega
  have hqueue {name guid : Text} (hq : InQueue feeds name guid (s.saveSeen f p true).log) :
      InQueue feeds name guid s.log := by simpa [InQueue, Pollers.saveSeen, Pollers.note,
        Pollers.setPoll] using hq
  have hlisted {guid : Text} (hl : Listed (entry p.doc (feeds f).name) guid) :
      Listed (entry s.ledger (feeds f).name) guid ∨ guid ∈ p.marked := by
    obtain ⟨t, ht⟩ := hl
    rcases (hcopy.own _).mp ht with ⟨h', -⟩ | ⟨h', -⟩
    · exact .inl ⟨t, hloaded ▸ h'⟩
    · exact .inr h'
  refine ⟨fun k q hk => h.copy k q (hrunning hk).2, fun k q hk => ?_, fun name guid hq => ?_,
    fun k q hk hv guid hq => ?_, fun name guid hm => ?_, fun k q hk guid hm => ?_, ⟨?_, h.exact⟩⟩
  · obtain ⟨hle, hold⟩ := h.versions k q (hrunning hk).2
    refine ⟨?_, fun hv => ?_⟩
    · refine Nat.le_trans hle ?_
      change s.version ≤ if p.doc = s.ledger then s.version else s.version + 1
      split <;> omega
    · obtain ⟨hv, hdoc⟩ := hsame hle hv
      rw [hledger, hdoc]
      exact hold hv
  · rw [hledger]
    have hq := hqueue hq
    by_cases hname : name = (feeds f).name
    · subst hname
      rcases h.copies f p hf hversion guid hq with hl | ⟨k, q, hkf, hk, hname, hg⟩
      · exact .inl hl
      · exact .inr ⟨k, q, hstays hkf hk, hname, hg⟩
    · rw [hcopy.others name hname, hloaded]
      refine (h.held name guid hq).imp_right ?_
      rintro ⟨k, q, hk, hname', hg⟩
      have hkf : k ≠ f := by
        rintro rfl
        exact hname hname'.symm
      exact ⟨k, q, hstays hkf hk, hname', hg⟩
  · obtain ⟨hkf, hk⟩ := hrunning hk
    obtain ⟨hv, hdoc⟩ := hsame (h.versions k q hk).1 hv
    refine (h.copies k q hk hv guid (hqueue hq)).imp_right ?_
    rintro ⟨j, r, hjk, hj, hname, hg⟩
    have hjf : j ≠ f := by
      rintro rfl
      -- what it has entered is not in the ledger it read
      rw [hf, Option.some_inj] at hj
      subst hj
      have hmark := hcopy.adds guid hg
      have hin := (hcopy.own (guid, p.now)).mpr (.inr ⟨hmark, rfl⟩)
      rw [hdoc, ← hloaded] at hin
      exact hcopy.fresh guid hmark hin
    exact ⟨j, r, hjk, hstays hjf hj, hname, hg⟩
  · rw [hledger]
    have hm : Missed feeds name guid s.log := by
      simpa [Pollers.saveSeen, Pollers.note, Pollers.setPoll] using hm
    by_cases hname : name = (feeds f).name
    · subst hname
      intro hl
      rcases hlisted hl with hl | hmark
      · exact h.missed _ guid hm hl
      · exact hmarked guid hmark hm
    · rw [hcopy.others name hname, hloaded]
      exact h.missed name guid hm
  · exact h.begun k q (hrunning hk).2 guid hm
  · intro name e he
    by_cases hname : name = (feeds f).name
    · subst hname
      by_cases hold : seenRetentionSecs ≤ p.now - e.2
      · exact .inr ⟨rfl, hold⟩
      · exact .inl ((hcopy.own e).mpr (.inl ⟨hloaded ▸ he, by omega⟩))
    · left
      rw [hcopy.others name hname, hloaded]
      exact he

/-- **A careful step keeps the invariant.** -/
theorem Inv.step (h : Inv feeds s) {i : Input ι} (hok : Careful feeds s i)
    (hnext : Pollers.Next feeds s i t) : Inv feeds t := by
  simp only [Pollers.Next] at hnext
  cases i with
  | begin f now items read =>
    cases hf : s.running f with
    | some p => simp [Pollers.step, hf] at hnext
    | none =>
      simp only [Pollers.step, hf, Option.some_inj, loadSeen_eq hok.1] at hnext
      exact hnext ▸ inv_begin h hf hok.2
  | handle f ok =>
    cases hf : s.running f with
    | none => simp [Pollers.step, hf] at hnext
    | some p =>
      cases hitems : p.items with
      | nil => simp [Pollers.step, hf, hitems] at hnext
      | cons item items =>
        simp only [Pollers.step, hf, hitems, Option.some_inj] at hnext
        exact hnext ▸ inv_handle h hf hitems hok
  | save f landed =>
    cases hf : s.running f with
    | none => simp [Pollers.step, hf] at hnext
    | some p =>
      have hcare := hok p hf
      simp only [Pollers.step, hf] at hnext
      split at hnext
      · obtain rfl := Option.some.inj hnext
        cases landed with
        | true => exact inv_landed h hf hcare.1 hcare.2
        | false => exact inv_drop h hf hcare
      · cases hnext
  | stop f =>
    cases hf : s.running f with
    | none => simp [Pollers.step, hf] at hnext
    | some p =>
      simp only [Pollers.step, hf, Option.some_inj] at hnext
      exact hnext ▸ inv_drop h hf (hok p hf)

variable (feeds) in
/-- **Queued exactly once**: in a run that avoids what `Careful` says, every event is as it
should be. -/
theorem exact_of_run (h : Run Pollers.Start (Pollers.Next feeds) (Careful feeds) s) :
    Always (Exact feeds) s.log :=
  (h.invariant (fun _ => inv_start) fun _ _ _ hi hok hn => hi.step hok hn).exact

end

/-! ### Two feeds -/

def twoFeeds : Bool → FeedDef
  | false => ⟨1, text "a", text "http://a.example", none, 0, false⟩
  | true => ⟨2, text "b", text "http://b.example", none, 0, false⟩

def release (guid : String) : FeedItem :=
  ⟨text guid, text "http://a.example/nzb", text guid, some ⟨none, none, none, none, none⟩⟩

def noPolls : Pollers Bool := ⟨none, fun _ => none, [], [], 0⟩

theorem noPolls_start : noPolls.Start := ⟨fun _ => rfl, rfl⟩

abbrev Polled : Pollers Bool → Prop := Run Pollers.Start (Pollers.Next twoFeeds) (Careful twoFeeds)

/-- A poll that drops nothing for its age. -/
theorem Polled.begin {s t : Pollers Bool} (h : Polled s) (f : Bool) (now : Int)
    (items : List FeedItem)
    (hfresh : ∀ e ∈ entry s.ledger (twoFeeds f).name, now - e.2 < seenRetentionSecs)
    (hstep : s.step twoFeeds (.begin f now items true) = some t) : Polled t := by
  refine .step h (i := .begin f now items true) ⟨fun h => (nomatch h), fun e he hold => ?_⟩ hstep
  have := hfresh e he
  omega

/-- Between two polls. -/
def quiet (file : Option SeenDoc) (queue : List (Text × Text × AddOpts)) (log : List (Event Bool))
    (version : Nat) : Pollers Bool := ⟨file, fun _ => none, queue, log, version⟩

theorem Polled.quiet {file : Option SeenDoc} {queue : List (Text × Text × AddOpts)}
    {log : List (Event Bool)} {version : Nat} {s : Pollers Bool} (h : Polled s)
    (hrunning : ∀ f, s.running f = none)
    (hs : (s.file, s.queue, s.log, s.version) = (file, queue, log, version)) :
    Polled (quiet file queue log version) := by
  obtain ⟨file', running, queue', log', version'⟩ := s
  obtain rfl : running = fun _ => none := funext hrunning
  cases hs
  exact h

/-- Feed `a` has its item queued; feed `b` cannot add its own and polls again; then `a` passes over
the item that is still listed. -/
theorem exact_of_run_retry : ∃ s : Pollers Bool, Polled s ∧
    s.queue.map (·.1) = [text "x", text "y"] ∧
      s.ledger = [(text "a", [(text "x", 5)]), (text "b", [(text "y", 7)])] ∧
      s.log.head? = some (.passed false (text "x") false) ∧ Always (Exact twoFeeds) s.log := by
  let a : SeenDoc := [(text "a", [(text "x", 5)])]
  let ab : SeenDoc := a ++ [(text "b", [(text "y", 7)])]
  let queued (f : Bool) (guid : String) : Text × Text × AddOpts := (text guid,
    text "http://a.example/nzb", addOpts (twoFeeds f) ⟨none, none, none, none, none⟩)
  let log₁ : List (Event Bool) :=
    [.saved false 5 [] a, .added false (text "x"), .polled false [text "x"]]
  let log₂ := [.failed true (text "y"), .polled true [text "y"]] ++ log₁
  let log₃ := [.saved true 7 a ab, .added true (text "y"), .polled true [text "y"]] ++ log₂
  have first : Polled (quiet (some a) [queued false "x"] log₁ 1) := by
    have hbegin : Polled _ := .begin (.start noPolls_start) false 5
      [release "x"] (fun e he => by cases he) rfl
    have hhandle : Polled _ :=
      .step hbegin (i := .handle false true) (fun p item items hp _ _ _ => by
      obtain rfl := Option.some.inj hp
      refine ⟨rfl, fun k q hk hq => ?_⟩
      cases k with
      | false => exact absurd rfl hk
      | true => cases hq) rfl
    have hsave : Polled _ := .step hhandle (i := .save false true) (fun p hp => by
      obtain rfl := Option.some.inj hp
      exact ⟨rfl, fun guid _ hm => missed_polled.mp (Missed.of_added hm)⟩) rfl
    exact hsave.quiet (by decide) rfl
  have second : Polled (quiet (some a) [queued false "x"] log₂ 1) := by
    have hbegin : Polled _ := first.begin true 6 [release "y"]
      (by decide +kernel) rfl
    have hhandle : Polled _ :=
      .step hbegin (i := .handle true false) (fun p item items hp hitems _ _ => by
      obtain rfl := Option.some.inj hp
      obtain ⟨rfl, rfl⟩ := List.cons.inj hitems
      exact fun hl => absurd (containsKey_iff.mpr hl) (by decide +kernel)) rfl
    have hsave : Polled _ := .step hhandle (i := .save true false) (fun p hp => by
      obtain rfl := Option.some.inj hp
      rfl) rfl
    exact hsave.quiet (by decide) rfl
  have third : Polled (quiet (some ab) [queued false "x", queued true "y"] log₃ 2) := by
    have hbegin : Polled _ := second.begin true 7 [release "y"]
      (by decide +kernel) rfl
    have hhandle : Polled _ :=
      .step hbegin (i := .handle true true) (fun p item items hp _ _ _ => by
      obtain rfl := Option.some.inj hp
      refine ⟨rfl, fun k q hk hq => ?_⟩
      cases k with
      | false => cases hq
      | true => exact absurd rfl hk) rfl
    have hsave : Polled _ := .step hhandle (i := .save true true) (fun p hp => by
      obtain rfl := Option.some.inj hp
      refine ⟨rfl, fun guid hg => ?_⟩
      obtain rfl := List.mem_singleton.mp hg
      -- the item has been added since it was missed
      rintro (⟨⟨_, he, -⟩, -⟩ | ⟨hn, -⟩)
      · cases he
      · exact hn ⟨true, rfl, rfl⟩) rfl
    exact hsave.quiet (by decide) rfl
  have hbegin : Polled _ := third.begin false 8 [release "x"]
    (by decide +kernel) rfl
  have hhandle : Polled _ :=
    .step hbegin (i := .handle false true) (fun p item items hp hitems _ hnew => by
    obtain rfl := Option.some.inj hp
    obtain ⟨rfl, rfl⟩ := List.cons.inj hitems
    exact absurd (containsKey_iff.mp (by decide +kernel)) hnew) rfl
  exact ⟨_, hhandle, by decide +kernel, by decide +kernel, by decide +kernel,
    exact_of_run twoFeeds hhandle⟩

/-- Two polls that overlap, and the next poll of the first feed. -/
def overlap : List (Input Bool) :=
  [.begin false 5 [release "x"] true, .begin true 5 [release "y"] true, .handle false true,
    .save false true, .handle true true, .save true true, .begin false 6 [release "x"] true,
    .handle false true]

def overlapLog : List (Event Bool) :=
  let a := (text "a", [(text "x", (5 : Int))])
  let b := (text "b", [(text "y", (5 : Int))])
  [.added false (text "x"), .polled false [text "x"], .saved true 5 [a] [b],
    .added true (text "y"), .saved false 5 [] [a], .added false (text "x"),
    .polled true [text "y"], .polled false [text "x"]]

/-- **Queued twice**: the second poll writes back a ledger without the entry of the first, and
the next poll of the first feed adds its item again. -/
theorem queued_twice : ∃ s : Pollers Bool,
    Run Pollers.Start (Pollers.Next twoFeeds) (fun _ _ => True) s ∧
      s.queue.map (·.1) = [text "x", text "y", text "x"] ∧
      ¬Always (Exact twoFeeds) s.log := by
  have hexec : (Trace.exec (Pollers.step twoFeeds) overlap noPolls).map
      (fun s => (s.queue.map (·.1), s.log)) =
        some ([text "x", text "y", text "x"], overlapLog) := by decide +kernel
  obtain ⟨s, hs, heq⟩ := Option.map_eq_some_iff.mp hexec
  obtain ⟨hqueue, hlog⟩ := Prod.mk.inj heq
  refine ⟨s, Trace.run_of_exec noPolls_start hs, hqueue, fun h => ?_⟩
  rw [hlog] at h
  refine h.1 ⟨false, rfl, ?_⟩
  rw [held_polled, held_saved, held_added, held_saved, held_added]
  exact ⟨fun _ => by decide, .inr (.inl ⟨rfl, rfl⟩)⟩

end Nzbd.Feed
