import Nzbd.Artifacts.Policy
import Nzbd.Artifacts.Tasks

/-!
# Retention

A tick looks at the rows that are parked or imported.  For each that can expire it keeps a point in
memory, the revision and the uptime, and what has passed since the last point at the same revision
is added to the count in the row; a commit that fails loses it.  A row whose period has been counted
out, and whose deadline is past, is due, and its deletion is requested after the commit.

`looks` is what the ticks have seen of a row since its policy last changed; it is not in the code.
`observed` are the seconds in it.  `earned_of_run` is that nothing is requested that has not been
observed for its period.  The revision may change without the count starting again: an inspection
that finds the files as they were does that.
-/

namespace Nzbd.Artifacts

open List Runs

/-! ### The clock of a row -/

/-- The nanoseconds of a second. -/
def nanos : Nat := 1000000000

/-- A cast of a `u64` to `i64`. -/
def asI64 (n : Nat) : Int := (n : Int).bmod (2 ^ 64)

def saturate (n : Int) : Int := max (-2 ^ 63) (min n (2 ^ 63 - 1))

namespace Artifact

def earliestExpiry (a : Artifact) (now : Int) : Option Int :=
  if a.eligible then
    a.deadline.map fun d => max d (saturate (now + asI64 (a.retentionSeconds - a.eligibleSeconds)))
  else none

/-- A row that has been seen for some seconds more. -/
def aged (a : Artifact) (elapsed : Nat) : Artifact :=
  { a with
    eligibleSeconds := min (min (a.eligibleSeconds + elapsed) (2 ^ 64 - 1)) a.retentionSeconds }

variable {a : Artifact}

theorem eligibleSeconds_aged (h : a.retentionSeconds < 2 ^ 63) (n : Nat) :
    (a.aged n).eligibleSeconds = min (a.eligibleSeconds + n) a.retentionSeconds := by
  simp only [aged]
  omega

theorem asI64_eq {n : Nat} (h : n < 2 ^ 63) : asI64 n = n := by
  unfold asI64
  rw [Int.bmod_eq_of_le] <;> omega

/-- **The earliest expiry is exact,** up to the end of time. -/
theorem earliestExpiry_eq (h : a.retentionSeconds < 2 ^ 63) {now : Int} (hnow : -2 ^ 63 ≤ now) :
    a.earliestExpiry now = if a.eligible then
      a.deadline.map fun d =>
        max d (min (now + (a.retentionSeconds - a.eligibleSeconds : Nat)) (2 ^ 63 - 1))
      else none := by
  have hcast : asI64 (a.retentionSeconds - a.eligibleSeconds) =
      (a.retentionSeconds - a.eligibleSeconds : Nat) := asI64_eq (by omega)
  have hsum : saturate (now + (a.retentionSeconds - a.eligibleSeconds : Nat)) =
      min (now + (a.retentionSeconds - a.eligibleSeconds : Nat)) (2 ^ 63 - 1) := by
    unfold saturate
    omega
  unfold earliestExpiry
  rw [hcast, hsum]

end Artifact

/-! ### Looks -/

/-- A tick at a row.  `saw` : it could expire, and the tick had found expiry switched on. -/
structure Look where
  process : Nat
  saw : Bool
  revision : Nat
  /-- The uptime, as the row is come to, as it is counted, and as it is left. -/
  entered : Nat
  read : Nat
  marked : Nat

/-- The whole seconds since the look before, if that was the same in all; a look that comes after
none such has its own only. -/
def Look.seconds (l : Look) : List Look → Nat
  | [] => (l.read - l.entered) / nanos
  | p :: _ =>
    if p.process = l.process ∧ p.saw ∧ p.revision = l.revision then (l.read - p.marked) / nanos
    else (l.read - l.entered) / nanos

/-- The last look is the first. -/
def observed : List Look → Nat
  | [] => 0
  | l :: ls => (if l.saw then l.seconds ls else 0) + observed ls

theorem observed_cons_of_saw {l : Look} (h : l.saw = true) (ls : List Look) :
    observed (l :: ls) = l.seconds ls + observed ls := by
  rw [observed, if_pos h]

/-! ### A tick -/

/-- What the clocks say to a tick, and how far it comes. -/
structure Pass where
  entered : Text → Nat
  read : Text → Nat
  marked : Text → Nat
  wall : Text → Int
  /-- It fails after so many rows. -/
  stopped : Option Nat
  committed : Bool

/-- A row that is due; `wall` is when it was found to be. -/
structure Due where
  key : Text
  revision : Nat
  wall : Int

/-- Where a tick is. -/
structure Course where
  clocks : Text → Option (Nat × Nat)
  writes : Tx
  due : List Due
  looks : Text → List Look

section Tick

variable (process : Nat) (enabled : Bool) (p : Pass)

/-- The seconds since the point of the row. -/
def Pass.elapsed (point : Option (Nat × Nat)) (a : Artifact) : Nat :=
  let (revision, since) := point.getD (a.revision, p.entered a.id)
  if revision = a.revision then (p.read a.id - since) / nanos else 0

def Pass.look (a : Artifact) : Look :=
  ⟨process, enabled && a.eligible, a.revision, p.entered a.id, p.read a.id, p.marked a.id⟩

def Course.visit (c : Course) (a : Artifact) : Course :=
  let looks := Function.update c.looks a.id (p.look process enabled a :: c.looks a.id)
  if enabled && a.eligible then
    let aged := a.aged (p.elapsed (c.clocks a.id) a)
    { clocks := Function.update c.clocks a.id (some (a.revision, p.marked a.id))
      writes := c.writes ++ [.artifact aged]
      due := c.due ++ if aged.retentionSeconds ≤ aged.eligibleSeconds &&
          aged.deadline.any (· ≤ p.wall a.id) then [⟨a.id, a.revision, p.wall a.id⟩] else []
      looks }
  else { c with clocks := Function.update c.clocks a.id none, looks }

end Tick

/-! ### The system -/

/-- An automatic deletion, as it is requested. -/
structure Expiry where
  artifact : Artifact
  observed : Nat
  /-- Of it, what was observed at the revision the row has. -/
  latest : Nat
  wall : Int

/-- It was seen for its period, and its deadline was past. -/
structure Expiry.Ripe (e : Expiry) : Prop where
  eligible : e.artifact.eligible = true
  observed : e.artifact.retentionSeconds ≤ e.observed
  deadline : ∃ d, e.artifact.deadline = some d ∧ d ≤ e.wall

/-- What a row that is due asks for. -/
def Due.txs (d : Due) (inv : Inventory) (now : Int) : List Tx :=
  inv.requestDelete d.key d.revision
    (text "retention-" ++ d.key ++ text "-" ++ showNat d.revision) 0 true now

/-- `enabled` is what the tick that goes on has read; `due` is what it still has to request. -/
structure Watch where
  inventory : Inventory
  disk : Disk
  process : Nat
  clocks : Text → Option (Nat × Nat)
  enabled : Option Bool
  due : List Due
  looks : Text → List Look
  expiries : List Expiry

inductive WatchStep
  /-- The first `n` transactions of an operation. -/
  | rows (c : RowStep) (n : Nat)
  | executeDelete (key : Text) (w : Answers)
  | outside (disk : Disk)
  /-- A tick begins with the settings. -/
  | settings
  | tick (p : Pass)
  /-- The next row that is due. -/
  | expire (n : Nat) (now : Int)
  | restart

namespace Watch

/-- A row whose policy has changed is looked at anew. -/
def turn (s : Watch) (inv : Inventory) : Watch :=
  { s with
    inventory := inv
    looks := fun key =>
      if (inv.artifact key).map Artifact.policy = (s.inventory.artifact key).map Artifact.policy
      then s.looks key else [] }

def tick (s : Watch) (enabled : Bool) (p : Pass) : Watch :=
  let rows := s.inventory.clocked
  let c := (rows.take (p.stopped.getD rows.length)).foldl (Course.visit s.process enabled p)
    ⟨s.clocks, [], [], s.looks⟩
  if p.stopped.isSome then { s with enabled := none, clocks := c.clocks, due := [], looks := c.looks }
  else
    { s with
      inventory := if p.committed then commit 1 [c.writes] s.inventory else s.inventory
      clocks := fun key => if rows.any (·.id = key) then c.clocks key else none
      enabled := none
      due := if p.committed then c.due else []
      looks := c.looks }

def expire (s : Watch) (d : Due) (ds : List Due) (n : Nat) (now : Int) : Watch :=
  let txs := d.txs s.inventory now
  { s with
    inventory := commit n txs s.inventory
    due := ds
    expiries := (if n = 0 ∨ txs = [] then []
      else (s.inventory.artifact d.key).toList.map fun a =>
        ⟨a, Artifacts.observed (s.looks d.key),
          Artifacts.observed ((s.looks d.key).takeWhile (·.revision = a.revision)), d.wall⟩) ++
      s.expiries }

def step (s : Watch) : WatchStep → Watch
  | .rows c n => s.turn (commit n (c.txs s.inventory) s.inventory)
  | .executeDelete key w =>
    let d := Artifacts.executeDelete w s.inventory s.disk key
    { s.turn d.inventory with disk := d.disk }
  | .outside disk => { s with disk := disk }
  | .settings => { s with enabled := some s.inventory.settings.enabled, due := [] }
  | .tick p =>
    match s.enabled with
    | none => s
    | some enabled => s.tick enabled p
  | .expire n now =>
    match s.due with
    | [] => s
    | d :: ds => s.expire d ds n now
  | .restart =>
    { s with process := s.process + 1, clocks := fun _ => none, enabled := none, due := [] }

/-- Any rows that have not been counted, and no requests that are automatic. -/
structure Start (s : Watch) : Prop where
  tidy : Tidy s.inventory
  uncounted : ∀ a ∈ s.inventory.artifacts, a.eligibleSeconds = 0
  requests : ∀ op ∈ s.inventory.operations, op.request.automatic = none
  clocks : ∀ key, s.clocks key = none
  due : s.due = []
  looks : ∀ key, s.looks key = []
  expiries : s.expiries = []

/-- **What the code can be given.** -/
def Allowed (s : Watch) : WatchStep → Prop
  | .rows c _ => c.Undisturbed s.inventory
  | _ => True

def Reached : Watch → Prop := Run Start (fun s i s' => s' = s.step i) Allowed

/-- **What is claimed** of a state. -/
structure Earned (s : Watch) : Prop where
  ripe : ∀ e ∈ s.expiries, e.Ripe
  /-- Every request that is automatic is one of these. -/
  requested : ∀ op ∈ s.inventory.operations, ∀ key revision,
    op.request.automatic = some (key, revision) →
      ∃ e ∈ s.expiries, e.artifact.id = key ∧ e.artifact.revision = revision
  counted : ∀ key a, s.inventory.artifact key = some a → a.eligible = true →
    a.eligibleSeconds ≤ Artifacts.observed (s.looks key)
  restarts : ∀ i, s.Allowed i → ∀ key a a', s.inventory.artifact key = some a →
    (s.step i).inventory.artifact key = some a' → a'.eligible = true → a'.policy ≠ a.policy →
      a'.eligibleSeconds = 0
  exact : ∀ a ∈ s.inventory.artifacts,
    (∀ n, (a.aged n).eligibleSeconds = min (a.eligibleSeconds + n) a.retentionSeconds) ∧
    ∀ now, -2 ^ 63 ≤ now → a.earliestExpiry now = if a.eligible then
      a.deadline.map fun d =>
        max d (min (now + (a.retentionSeconds - a.eligibleSeconds : Nat)) (2 ^ 63 - 1))
      else none

end Watch

/-! ### What a tick does -/

section Course

variable {process : Nat} {enabled : Bool} {p : Pass} {c : Course} {rows : List Artifact}

variable {a : Artifact}

theorem visit_of_ne {key : Text} (h : a.id ≠ key) :
    (c.visit process enabled p a).clocks key = c.clocks key ∧
      (c.visit process enabled p a).looks key = c.looks key := by
  unfold Course.visit
  split <;> exact ⟨Function.update_of_ne (Ne.symm h) _ _, Function.update_of_ne (Ne.symm h) _ _⟩

theorem looks_visit (a : Artifact) :
    (c.visit process enabled p a).looks a.id = p.look process enabled a :: c.looks a.id := by
  unfold Course.visit
  split <;> exact Function.update_self _ _ _

theorem clocks_visit (a : Artifact) : (c.visit process enabled p a).clocks a.id =
    if enabled && a.eligible then some (a.revision, p.marked a.id) else none := by
  unfold Course.visit
  split_ifs <;> exact Function.update_self _ _ _

/-- What a tick has come to after some rows, each of them once. -/
structure Visited (process : Nat) (enabled : Bool) (p : Pass) (c : Course) (rows : List Artifact)
    (c' : Course) : Prop where
  other : ∀ key, (∀ a ∈ rows, a.id ≠ key) → c'.clocks key = c.clocks key ∧ c'.looks key = c.looks key
  clock : ∀ a ∈ rows, c'.clocks a.id =
    if enabled && a.eligible then some (a.revision, p.marked a.id) else none
  look : ∀ a ∈ rows, c'.looks a.id = p.look process enabled a :: c.looks a.id
  writes : ∀ w ∈ c'.writes, w ∈ c.writes ∨ ∃ a ∈ rows, (enabled && a.eligible) = true ∧
    w = .artifact (a.aged (p.elapsed (c.clocks a.id) a))
  due : ∀ d ∈ c'.due, d ∈ c.due ∨ ∃ a ∈ rows, (enabled && a.eligible) = true ∧
    d = ⟨a.id, a.revision, p.wall a.id⟩ ∧
    a.retentionSeconds ≤ (a.aged (p.elapsed (c.clocks a.id) a)).eligibleSeconds ∧
    ∃ deadline, a.deadline = some deadline ∧ deadline ≤ p.wall a.id

theorem visited_singleton (a : Artifact) :
    Visited process enabled p c [a] (c.visit process enabled p a) where
  other key h := visit_of_ne (h a mem_cons_self)
  clock b hb := by
    rw [mem_singleton.mp hb]
    exact clocks_visit a
  look b hb := by
    rw [mem_singleton.mp hb]
    exact looks_visit a
  writes w hw := by
    unfold Course.visit at hw
    split at hw
    · next hsaw =>
      rcases mem_append.mp hw with hw | hw
      · exact .inl hw
      · exact .inr ⟨a, mem_singleton_self a, hsaw, mem_singleton.mp hw⟩
    · exact .inl hw
  due d hd := by
    unfold Course.visit at hd
    split at hd
    · next hsaw =>
      rcases mem_append.mp hd with hd | hd
      · exact .inl hd
      · split at hd
        · next hdue =>
          rw [Bool.and_eq_true, decide_eq_true_eq, Option.any_eq_true] at hdue
          obtain ⟨hperiod, deadline, hdeadline, hpast⟩ := hdue
          exact .inr ⟨a, mem_singleton_self a, hsaw, mem_singleton.mp hd, hperiod, deadline,
            hdeadline, by simpa using hpast⟩
        · cases hd
    · exact .inl hd

theorem Visited.cons {c' c'' : Course} (h : Visited process enabled p c [a] c')
    (h' : Visited process enabled p c' rows c'') (hne : ∀ b ∈ rows, b.id ≠ a.id) :
    Visited process enabled p c (a :: rows) c'' where
  other key hkey := by
    obtain ⟨hclock, hlook⟩ := h'.other key fun b hb => hkey b (mem_cons_of_mem _ hb)
    obtain ⟨hclock', hlook'⟩ := h.other key fun b hb => hkey b (by
      rw [mem_singleton.mp hb]
      exact mem_cons_self)
    exact ⟨hclock.trans hclock', hlook.trans hlook'⟩
  clock b hb := by
    rcases mem_cons.mp hb with rfl | hb
    · exact (h'.other b.id hne).1.trans (h.clock b (mem_singleton_self b))
    · exact h'.clock b hb
  look b hb := by
    rcases mem_cons.mp hb with rfl | hb
    · exact (h'.other b.id hne).2.trans (h.look b (mem_singleton_self b))
    · rw [h'.look b hb, (h.other b.id fun d hd => mem_singleton.mp hd ▸ (hne b hb).symm).2]
  writes w hw := by
    rcases h'.writes w hw with hw | ⟨b, hb, hsaw, rfl⟩
    · refine (h.writes w hw).imp_right fun ⟨b, hb, hrest⟩ => ⟨b, ?_, hrest⟩
      rw [mem_singleton.mp hb]
      exact mem_cons_self
    · have hclock := (h.other b.id fun d hd => mem_singleton.mp hd ▸ (hne b hb).symm).1
      exact .inr ⟨b, mem_cons_of_mem _ hb, hsaw, by rw [hclock]⟩
  due d hd := by
    rcases h'.due d hd with hd | ⟨b, hb, hsaw, hd, hperiod, hdeadline⟩
    · refine (h.due d hd).imp_right fun ⟨b, hb, hrest⟩ => ⟨b, ?_, hrest⟩
      rw [mem_singleton.mp hb]
      exact mem_cons_self
    · have hclock := (h.other b.id fun d hd => mem_singleton.mp hd ▸ (hne b hb).symm).1
      exact .inr ⟨b, mem_cons_of_mem _ hb, hsaw, hd, by rw [← hclock]; exact hperiod, hdeadline⟩

/-- **Each row is visited once,** so what it comes to does not hang on the others. -/
theorem visited_foldl (hkeys : (rows.map Artifact.id).Nodup) :
    Visited process enabled p c rows (rows.foldl (Course.visit process enabled p) c) := by
  induction rows generalizing c with
  | nil =>
    exact ⟨fun _ _ => ⟨rfl, rfl⟩, fun _ h => (by cases h), fun _ h => (by cases h),
      fun _ h => .inl h, fun _ h => .inl h⟩
  | cons a rows ih =>
    rw [map_cons, nodup_cons] at hkeys
    exact (visited_singleton a).cons (ih hkeys.2)
      fun b hb he => hkeys.1 (he ▸ mem_map_of_mem hb)

end Course

/-! ### What holds all along -/

/-- The row has gone on since the revision, or cannot be deleted, or else it is as it was. -/
def Stands (a : Artifact) (revision : Nat) (P : Prop) : Prop :=
  revision < a.revision ∨ revision = a.revision ∧ (a.requestable = false ∨ P)

theorem Stands.mono {r : Nat} {P Q : Prop} (h : Stands a r P) (hpq : P → Q) :
    Stands a r Q := h.imp_right fun ⟨hr, hp⟩ => ⟨hr, hp.imp_right hpq⟩

theorem Turned.stands {inv inv' : Inventory} (h : Turned inv inv') {key : Text}
    (hkey : isCopy key = false) (ha : inv.artifact key = some a) : ∃ a', inv'.artifact key = some a' ∧
      ∀ r P, Stands a r P → Stands a' r (a'.policy = a.policy ∧ P) := by
  rcases h.rows key with hsame | ⟨a', ha', rfl, hfollows⟩
  · exact ⟨a, hsame.trans ha, fun r P hs => hs.mono fun hp => ⟨rfl, hp⟩⟩
  · refine ⟨a', ha', fun r P hs => ?_⟩
    rcases hfollows.later hkey a ha with hlt | ⟨heq, hkeep⟩
    · refine .inl ?_
      rcases hs with hr | ⟨hr, -⟩ <;> omega
    · rcases hs with hr | ⟨hr, hp⟩
      · exact .inl (heq ▸ hr)
      · refine .inr ⟨hr.trans heq, ?_⟩
        rcases hkeep with hpolicy | hidle
        · exact hp.imp (Artifact.requestable_congr hpolicy).trans fun hp => ⟨hpolicy, hp⟩
        · exact .inl hidle

namespace Watch

/-- The last look is the one that the point of the row is from. -/
def Marked (s : Watch) (key : Text) (point : Nat × Nat) : Prop :=
  ∃ l ls, s.looks key = l :: ls ∧ l.process = s.process ∧ l.saw = true ∧ l.revision = point.1 ∧
    l.marked = point.2

/-- The row has been counted out, and its deadline is past. -/
def Counted (s : Watch) (d : Due) (a : Artifact) : Prop :=
  a.eligible = true ∧ a.retentionSeconds ≤ Artifacts.observed (s.looks d.key) ∧
    ∃ deadline, a.deadline = some deadline ∧ deadline ≤ d.wall

structure Inv (s : Watch) : Prop where
  tidy : Tidy s.inventory
  past : ∀ key, ∀ l ∈ s.looks key, l.process ≤ s.process
  counted : ∀ key a, s.inventory.artifact key = some a → a.eligible = true →
    a.eligibleSeconds ≤ Artifacts.observed (s.looks key)
  seen : ∀ key l ls, s.looks key = l :: ls → l.saw = true → l.process = s.process →
    ∃ a, s.inventory.artifact key = some a ∧ a.eligible = true ∧
      s.clocks key = some (l.revision, l.marked)
  clocks : ∀ key point, s.clocks key = some point → isCopy key = false ∧
    ∃ a, s.inventory.artifact key = some a ∧ Stands a point.1 (s.Marked key point)
  due : ∀ d ∈ s.due, isCopy d.key = false ∧
    ∃ a, s.inventory.artifact d.key = some a ∧ Stands a d.revision (s.Counted d a)
  ripe : ∀ e ∈ s.expiries, e.Ripe
  requested : ∀ op ∈ s.inventory.operations, ∀ key revision,
    op.request.automatic = some (key, revision) →
      ∃ e ∈ s.expiries, e.artifact.id = key ∧ e.artifact.revision = revision

theorem inv_of_start {s : Watch} (h : s.Start) : s.Inv where
  tidy := h.tidy
  past key l hl := by
    rw [h.looks key] at hl
    cases hl
  counted key a ha _ := by
    rw [h.uncounted a (Table.mem_of_get ha)]
    exact Nat.zero_le _
  seen key l ls hl := by
    rw [h.looks key] at hl
    cases hl
  clocks key point hpoint := by
    rw [h.clocks key] at hpoint
    cases hpoint
  due d hd := by
    rw [h.due] at hd
    cases hd
  ripe e he := by
    rw [h.expiries] at he
    cases he
  requested op hop key revision hauto := by
    rw [h.requests op hop] at hauto
    cases hauto

section Step

variable {s : Watch} {inv : Inventory}

theorem looks_turn {key : Text} {a a' : Artifact} (ha : s.inventory.artifact key = some a)
    (ha' : inv.artifact key = some a') (h : a'.policy = a.policy) :
    (s.turn inv).looks key = s.looks key := by
  refine if_pos ?_
  rw [ha, ha', Option.map_some, Option.map_some, h]

theorem looks_turn_cases (s : Watch) (inv : Inventory) (key : Text) :
    (s.turn inv).looks key = [] ∨ (s.turn inv).looks key = s.looks key ∧
      (inv.artifact key).map Artifact.policy = (s.inventory.artifact key).map Artifact.policy := by
  change (if _ then _ else _) = _ ∨ (if _ then _ else _) = _ ∧ _
  split_ifs with h
  · exact .inr ⟨rfl, h⟩
  · exact .inl rfl

/-- **An operation keeps the count,** or starts it again. -/
theorem inv_turn (h : s.Inv) (hturned : Turned s.inventory inv) : (s.turn inv).Inv where
  tidy := hturned.tidy
  past key l hl := by
    rcases looks_turn_cases s inv key with hnil | ⟨hsame, -⟩
    · rw [hnil] at hl
      cases hl
    · rw [hsame] at hl
      exact h.past key l hl
  counted key a' ha' heligible := by
    change inv.artifact key = some a' at ha'
    rcases hturned.rows key with hsame | ⟨b, hb, rfl, hfollows⟩
    · have ha : s.inventory.artifact key = some a' := hsame.symm.trans ha'
      rw [looks_turn ha ha' rfl]
      exact h.counted key a' ha heligible
    · obtain rfl := Option.some.inj (hb.symm.trans ha')
      obtain ⟨a, ha, ⟨-, hzero⟩ | ⟨hpolicy, hseconds⟩⟩ := hfollows.count heligible
      · rw [hzero]
        exact Nat.zero_le _
      · rw [looks_turn ha ha' hpolicy, hseconds]
        exact h.counted _ a ha ((Artifact.eligible_congr hpolicy).symm.trans heligible)
  seen key l ls hl hsaw hprocess := by
    rcases looks_turn_cases s inv key with hnil | ⟨hsame, hpolicy⟩
    · rw [hnil] at hl
      cases hl
    · obtain ⟨a, ha, heligible, hclock⟩ := h.seen key l ls (hsame.symm.trans hl) hsaw hprocess
      rw [ha, Option.map_some, Option.map_eq_some_iff] at hpolicy
      obtain ⟨a', ha', hpolicy⟩ := hpolicy
      exact ⟨a', ha', (Artifact.eligible_congr hpolicy).trans heligible, hclock⟩
  clocks key point hpoint := by
    obtain ⟨hkey, a, ha, hstands⟩ := h.clocks key point hpoint
    obtain ⟨a', ha', hnext⟩ := hturned.stands hkey ha
    refine ⟨hkey, a', ha', (hnext _ _ hstands).mono ?_⟩
    rintro ⟨hpolicy, l, ls, hl, hrest⟩
    exact ⟨l, ls, (looks_turn ha ha' hpolicy).trans hl, hrest⟩
  due d hd := by
    obtain ⟨hkey, a, ha, hstands⟩ := h.due d hd
    obtain ⟨a', ha', hnext⟩ := hturned.stands hkey ha
    refine ⟨hkey, a', ha', (hnext _ _ hstands).mono ?_⟩
    rintro ⟨hpolicy, heligible, hobserved, hdeadline⟩
    refine ⟨(Artifact.eligible_congr hpolicy).trans heligible, ?_, ?_⟩
    · rw [looks_turn ha ha' hpolicy, show a'.retentionSeconds = a.retentionSeconds from
        (Policy.mk.inj hpolicy).2.2.2.2.1]
      exact hobserved
    · rw [show a'.deadline = a.deadline from (Policy.mk.inj hpolicy).2.2.2.2.2]
      exact hdeadline
  ripe := h.ripe
  requested op hop key revision hauto := by
    rcases hturned.requests op hop with hnone | ⟨old, hold, hrequest⟩
    · rw [hnone] at hauto
      cases hauto
    · exact h.requested old hold key revision (by rw [hrequest]; exact hauto)

theorem elapsed_le_seconds (h : s.Inv) {enabled : Bool} {p : Pass}
    (ha : s.inventory.artifact a.id = some a) (hsaw : (enabled && a.eligible) = true) :
    p.elapsed (s.clocks a.id) a ≤ (p.look s.process enabled a).seconds (s.looks a.id) := by
  have heligible : a.eligible = true := (Bool.and_eq_true_iff.mp hsaw).2
  cases hpoint : s.clocks a.id with
  | none =>
    have helapsed : p.elapsed none a = (p.read a.id - p.entered a.id) / nanos := if_pos rfl
    rw [helapsed]
    cases hlooks : s.looks a.id with
    | nil => exact le_rfl
    | cons q qs =>
      by_cases hq : q.process = s.process ∧ q.saw = true ∧ q.revision = a.revision
      · -- a look that has been seen leaves a point
        obtain ⟨_, _, _, hclock⟩ := h.seen a.id q qs hlooks hq.2.1 hq.1
        rw [hpoint] at hclock
        cases hclock
      · exact (if_neg hq).symm.le
  | some point =>
    obtain ⟨-, b, hb, hstands⟩ := h.clocks a.id point hpoint
    obtain rfl := Option.some.inj (ha.symm.trans hb)
    by_cases hrevision : point.1 = a.revision
    · have helapsed : p.elapsed (some point) a = (p.read a.id - point.2) / nanos := if_pos hrevision
      rw [helapsed]
      rcases hstands with hlt | ⟨-, hidle | ⟨l, ls, hl, hprocess, hlsaw, hlrevision, hmarked⟩⟩
      · omega
      · rw [Artifact.requestable_of_eligible heligible] at hidle
        cases hidle
      · rw [hl, ← hmarked]
        exact (if_pos ⟨hprocess, hlsaw, hlrevision.trans hrevision⟩).symm.le
    · have helapsed : p.elapsed (some point) a = 0 := if_neg hrevision
      rw [helapsed]
      exact Nat.zero_le _

/-- The rows after a tick: some of those it has been at have grown older. -/
def Older (s : Watch) (p : Pass) (enabled : Bool) (rows : List Artifact) (inv : Inventory) : Prop :=
  ∀ key, inv.artifact key = s.inventory.artifact key ∨
    ∃ a ∈ rows, a.id = key ∧ (enabled && a.eligible) = true ∧
      inv.artifact key = some (a.aged (p.elapsed (s.clocks a.id) a))

theorem Older.row {p : Pass} {enabled : Bool} {rows : List Artifact}
    (h : s.Older p enabled rows inv) (hrows : ∀ a ∈ rows, s.inventory.artifact a.id = some a)
    {key : Text} (ha : s.inventory.artifact key = some a) :
    ∃ a', inv.artifact key = some a' ∧ a'.policy = a.policy ∧ a'.revision = a.revision := by
  rcases h key with hsame | ⟨b, hb, rfl, -, hget⟩
  · exact ⟨a, hsame.trans ha, rfl, rfl⟩
  · obtain rfl := Option.some.inj ((hrows b hb).symm.trans ha)
    exact ⟨_, hget, rfl, rfl⟩

/-- **A tick keeps to what it has seen.** -/
theorem inv_of_visited (h : s.Inv) {enabled : Bool} {p : Pass} {rows : List Artifact} {c : Course}
    (hv : Visited s.process enabled p ⟨s.clocks, [], [], s.looks⟩ rows c)
    (hrows : ∀ a ∈ rows, s.inventory.artifact a.id = some a) {s' : Watch}
    (htidy : Tidy s'.inventory) (holder : s.Older p enabled rows s'.inventory)
    (hoperations : s'.inventory.operations = s.inventory.operations)
    (hprocess : s'.process = s.process) (hlooks : s'.looks = c.looks)
    (hclocks : ∀ key, s'.clocks key = c.clocks key ∨ s'.clocks key = none ∧
      ∀ a, s.inventory.artifact key = some a → a.eligible = false)
    (hdue : ∀ d ∈ s'.due, d ∈ c.due) (hexpiries : s'.expiries = s.expiries) : s'.Inv := by
  have hlook : ∀ a ∈ rows, s'.looks a.id = p.look s.process enabled a :: s.looks a.id :=
    fun a ha => by rw [hlooks]; exact hv.look a ha
  have hother : ∀ key, (∀ a ∈ rows, a.id ≠ key) →
      c.clocks key = s.clocks key ∧ s'.looks key = s.looks key :=
    fun key hkey => ⟨(hv.other key hkey).1, by rw [hlooks]; exact (hv.other key hkey).2⟩
  have hsum : ∀ a ∈ rows, (enabled && a.eligible) = true →
      (a.aged (p.elapsed (s.clocks a.id) a)).eligibleSeconds ≤ Artifacts.observed (s'.looks a.id) := by
    intro a ha hsaw
    have hget := hrows a ha
    have hseconds := elapsed_le_seconds h (p := p) hget hsaw
    have hcounted := h.counted a.id a hget (Bool.and_eq_true_iff.mp hsaw).2
    rw [hlook a ha, observed_cons_of_saw (show (p.look s.process enabled a).saw = true from hsaw),
      Artifact.eligibleSeconds_aged (h.tidy.period hget)]
    omega
  constructor
  case tidy => exact htidy
  case past =>
    intro key l hl
    rw [hprocess]
    by_cases hkey : ∃ a ∈ rows, a.id = key
    · obtain ⟨a, ha, rfl⟩ := hkey
      rw [hlook a ha] at hl
      rcases mem_cons.mp hl with rfl | hl
      · exact le_rfl
      · exact h.past _ l hl
    · rw [(hother key fun a ha he => hkey ⟨a, ha, he⟩).2] at hl
      exact h.past key l hl
  case counted =>
    intro key a' ha' heligible
    rcases holder key with hsame | ⟨a, ha, rfl, hsaw, hget⟩
    · have ha := hsame.symm.trans ha'
      refine (h.counted key a' ha heligible).trans ?_
      by_cases hkey : ∃ a ∈ rows, a.id = key
      · obtain ⟨b, hb, rfl⟩ := hkey
        rw [hlook b hb]
        exact Nat.le_add_left _ _
      · rw [(hother key fun a ha he => hkey ⟨a, ha, he⟩).2]
    · obtain rfl := Option.some.inj (hget.symm.trans ha')
      exact hsum a ha hsaw
  case seen =>
    intro key l ls hl hsaw hlprocess
    rw [hprocess] at hlprocess
    by_cases hkey : ∃ a ∈ rows, a.id = key
    · obtain ⟨a, ha, rfl⟩ := hkey
      rw [hlook a ha] at hl
      obtain ⟨rfl, -⟩ := cons.inj hl
      have heligible : a.eligible = true := (Bool.and_eq_true_iff.mp hsaw).2
      obtain ⟨a', ha', hpolicy, -⟩ := holder.row hrows (hrows a ha)
      refine ⟨a', ha', (Artifact.eligible_congr hpolicy).trans heligible, ?_⟩
      rcases hclocks a.id with hclock | ⟨-, hnot⟩
      · rw [hclock, hv.clock a ha]
        exact if_pos hsaw
      · rw [hnot a (hrows a ha)] at heligible
        cases heligible
    · obtain ⟨hclock, hsame⟩ := hother key fun a ha he => hkey ⟨a, ha, he⟩
      obtain ⟨a, ha, heligible, hpoint⟩ := h.seen key l ls (hsame.symm.trans hl) hsaw hlprocess
      obtain ⟨a', ha', hpolicy, -⟩ := holder.row hrows ha
      refine ⟨a', ha', (Artifact.eligible_congr hpolicy).trans heligible, ?_⟩
      rcases hclocks key with hclock' | ⟨-, hnot⟩
      · rw [hclock', hclock, hpoint]
      · rw [hnot a ha] at heligible
        cases heligible
  case clocks =>
    intro key point hpoint
    have hpoint : c.clocks key = some point := by
      rcases hclocks key with hclock | ⟨hnone, -⟩
      · rwa [hclock] at hpoint
      · rw [hnone] at hpoint
        cases hpoint
    by_cases hkey : ∃ a ∈ rows, a.id = key
    · obtain ⟨a, ha, rfl⟩ := hkey
      rw [hv.clock a ha] at hpoint
      split at hpoint
      · next hsaw =>
        obtain rfl := Option.some.inj hpoint
        obtain ⟨a', ha', -, hrevision⟩ := holder.row hrows (hrows a ha)
        exact ⟨h.tidy.not_copy (hrows a ha) (Bool.and_eq_true_iff.mp hsaw).2, a', ha',
          .inr ⟨hrevision.symm, .inr ⟨_, _, hlook a ha, hprocess.symm, hsaw, rfl, rfl⟩⟩⟩
      · cases hpoint
    · obtain ⟨hclock, hsame⟩ := hother key fun a ha he => hkey ⟨a, ha, he⟩
      obtain ⟨hcopy, a, ha, hstands⟩ := h.clocks key point (hclock.symm.trans hpoint)
      obtain ⟨a', ha', hpolicy, hrevision⟩ := holder.row hrows ha
      refine ⟨hcopy, a', ha', ?_⟩
      unfold Stands at hstands ⊢
      rw [hrevision, Artifact.requestable_congr hpolicy]
      refine Stands.mono hstands ?_
      rintro ⟨l, ls, hl, hlprocess, hrest⟩
      exact ⟨l, ls, hsame.trans hl, hlprocess.trans hprocess.symm, hrest⟩
  case due =>
    intro d hd
    rcases hv.due d (hdue d hd) with hnil | ⟨a, ha, hsaw, rfl, hperiod, hdeadline⟩
    · cases hnil
    · obtain ⟨a', ha', hpolicy, hrevision⟩ := holder.row hrows (hrows a ha)
      refine ⟨h.tidy.not_copy (hrows a ha) (Bool.and_eq_true_iff.mp hsaw).2, a', ha',
        .inr ⟨hrevision.symm, .inr ⟨?_, ?_, ?_⟩⟩⟩
      · exact (Artifact.eligible_congr hpolicy).trans (Bool.and_eq_true_iff.mp hsaw).2
      · rw [show a'.retentionSeconds = a.retentionSeconds from (Policy.mk.inj hpolicy).2.2.2.2.1]
        exact hperiod.trans (hsum a ha hsaw)
      · rw [show a'.deadline = a.deadline from (Policy.mk.inj hpolicy).2.2.2.2.2]
        exact hdeadline
  case ripe => exact hexpiries ▸ h.ripe
  case requested => exact hexpiries ▸ hoperations ▸ h.requested

theorem artifacts_only {ws : List Write} (h : ∀ w ∈ ws, ∃ a, w = .artifact a) (inv : Inventory) :
    (ws.foldl Write.apply inv).operations = inv.operations ∧
      (ws.foldl Write.apply inv).settings = inv.settings := by
  induction ws generalizing inv with
  | nil => exact ⟨rfl, rfl⟩
  | cons w ws ih =>
    obtain ⟨a, rfl⟩ := h w mem_cons_self
    exact ih (fun w hw => h w (mem_cons_of_mem _ hw)) (inv.saveArtifact a)

/-- What a tick commits. -/
structure Aging (s : Watch) (p : Pass) (enabled : Bool) (rows : List Artifact) (inv : Inventory) :
    Prop where
  tidy : Tidy inv
  older : s.Older p enabled rows inv
  operations : inv.operations = s.inventory.operations

theorem aging_refl (hinv : Tidy s.inventory) (p : Pass) (enabled : Bool) (rows : List Artifact) :
    s.Aging p enabled rows s.inventory :=
  ⟨hinv, fun _ => .inl rfl, rfl⟩

theorem aging_commit (hinv : Tidy s.inventory) {enabled : Bool} {p : Pass} {rows : List Artifact}
    {c : Course} (hv : Visited s.process enabled p ⟨s.clocks, [], [], s.looks⟩ rows c)
    (hrows : ∀ a ∈ rows, s.inventory.artifact a.id = some a) :
    s.Aging p enabled rows (commit 1 [c.writes] s.inventory) := by
  have hwritten : ∀ w ∈ c.writes, ∃ a ∈ rows, (enabled && a.eligible) = true ∧
      w = .artifact (a.aged (p.elapsed (s.clocks a.id) a)) := by
    intro w hw
    rcases hv.writes w hw with hnil | hrow
    · cases hnil
    · exact hrow
  have hall : ([c.writes].take 1).flatten = c.writes := append_nil _
  have hrest := artifacts_only (fun w hw => by
    obtain ⟨a, -, -, rfl⟩ := hwritten w hw
    exact ⟨_, rfl⟩) s.inventory
  unfold commit
  rw [hall]
  refine ⟨⟨keys_foldl hinv.keys, fun a ha => ?_, fun a ha hcopy => ?_, ?_, ?_⟩, fun key => ?_, hrest.1⟩
  · rcases mem_artifacts_foldl ha with hnew | ⟨hold, -⟩
    · obtain ⟨b, hb, -, hab⟩ := hwritten _ hnew
      have hperiod := hinv.period (hrows b hb)
      rw [Write.artifact.inj hab]
      exact hperiod
    · exact hinv.periods a hold
  · rcases mem_artifacts_foldl ha with hnew | ⟨hold, -⟩
    · obtain ⟨b, hb, -, hab⟩ := hwritten _ hnew
      have hshelved := hinv.copies b (Table.mem_of_get (hrows b hb))
      obtain rfl := Write.artifact.inj hab
      exact (hshelved hcopy).move (.inl rfl) (.inl rfl)
    · exact hinv.copies a hold hcopy
  · rw [hrest.1]
    exact hinv.requests
  · rw [hrest.2]
    exact hinv.days
  · rcases artifact_foldl s.inventory c.writes key with hsame | ⟨a, ha, hid, hget⟩
    · exact .inl hsame
    · obtain ⟨b, hb, hsaw, hab⟩ := hwritten _ ha
      obtain rfl := Write.artifact.inj hab
      exact .inr ⟨b, hb, hid, hsaw, hget⟩

theorem inv_tick (h : s.Inv) (enabled : Bool) (p : Pass) : (s.tick enabled p).Inv ∧
    ∃ rows, (∀ a ∈ rows, s.inventory.artifact a.id = some a) ∧
      s.Older p enabled rows (s.tick enabled p).inventory := by
  have hclocked : ∀ a ∈ s.inventory.clocked, s.inventory.artifact a.id = some a :=
    fun a ha => h.tidy.artifact_of_mem (mem_filter.mp ha).1
  have hkeys : (s.inventory.clocked.map Artifact.id).Nodup :=
    h.tidy.keys.sublist (filter_sublist.map _)
  cases hstopped : p.stopped with
  | some n =>
    have hrows : ∀ a ∈ s.inventory.clocked.take n, s.inventory.artifact a.id = some a :=
      fun a ha => hclocked a (mem_of_mem_take ha)
    have hv : Visited s.process enabled p ⟨s.clocks, [], [], s.looks⟩ (s.inventory.clocked.take n) _ :=
      visited_foldl (hkeys.sublist ((take_sublist _ _).map _))
    have hself := aging_refl h.tidy p enabled (s.inventory.clocked.take n)
    unfold tick
    simp only [hstopped, Option.isSome_some, if_true, Option.getD_some]
    exact ⟨inv_of_visited h hv hrows hself.tidy hself.older rfl rfl rfl (fun _ => .inl rfl)
      (fun d hd => by cases hd) rfl, _, hrows, hself.older⟩
  | none =>
    have hv : Visited s.process enabled p ⟨s.clocks, [], [], s.looks⟩ s.inventory.clocked _ :=
      visited_foldl hkeys
    -- a row that the tick does not ask for cannot expire
    have hretain : ∀ (point : Option (Nat × Nat)) (key : Text),
        (if s.inventory.clocked.any (·.id = key) then point else none) = point ∨
        (if s.inventory.clocked.any (·.id = key) then point else none) = none ∧
          ∀ a, s.inventory.artifact key = some a → a.eligible = false := by
      intro point key
      split_ifs with hany
      · exact .inl rfl
      · refine .inr ⟨rfl, fun a ha => Bool.eq_false_iff.mpr fun heligible => hany ?_⟩
        refine any_eq_true.mpr ⟨a, mem_filter.mpr ⟨Table.mem_of_get ha, ?_⟩, ?_⟩
        · simp only [Artifact.eligible, Bool.and_eq_true] at heligible
          exact heligible.1.1.1.2
        · simpa using Table.key_of_get ha
    unfold tick
    simp only [hstopped, Option.isSome_none, Bool.false_eq_true, if_false, Option.getD_none,
      take_length]
    cases p.committed with
    | true =>
      have hcommit := aging_commit h.tidy hv hclocked
      exact ⟨inv_of_visited h hv hclocked hcommit.tidy hcommit.older hcommit.operations rfl rfl
        (fun key => hretain _ key) (fun d hd => hd) rfl, _, hclocked, hcommit.older⟩
    | false =>
      have hself := aging_refl h.tidy p enabled s.inventory.clocked
      exact ⟨inv_of_visited h hv hclocked hself.tidy hself.older rfl rfl rfl
        (fun key => hretain _ key) (fun d hd => by cases hd) rfl, _, hclocked, hself.older⟩

/-! ### A request -/

theorem expire_cases (s : Watch) (d : Due) (ds : List Due) (n : Nat) (now : Int) :
    (s.expire d ds n now).inventory = s.inventory ∧ (s.expire d ds n now).expiries = s.expiries ∨
    ∃ a op, s.inventory.artifact d.key = some a ∧ a.revision = d.revision ∧ a.requestable = true ∧
      op.request.Fits ∧ op.request.automatic = some (d.key, d.revision) ∧
      (s.expire d ds n now).inventory = s.inventory.saveOperation op ∧
      (s.expire d ds n now).expiries = ⟨a, Artifacts.observed (s.looks d.key),
        Artifacts.observed ((s.looks d.key).takeWhile (·.revision = a.revision)), d.wall⟩ ::
          s.expiries := by
  unfold expire Due.txs Inventory.requestDelete
  generalize text "retention-" ++ d.key ++ text "-" ++ showNat d.revision = requestId
  split
  · exact .inl (by simp [commit])
  · cases ha : s.inventory.artifact d.key with
    | none => exact .inl (by simp [commit])
    | some a =>
      simp only
      split
      · exact .inl (by simp [commit])
      · next hok =>
        cases n with
        | zero => exact .inl (by simp [commit])
        | succ n =>
          simp only [ne_eq, not_or, Decidable.not_not, Bool.not_eq_false, Bool.not_eq_true,
            Option.isSome_eq_false_iff, Option.isNone_iff_eq_none] at hok
          obtain ⟨hrevision, howned, hkeep, hhold, hstate, -⟩ := hok
          refine .inr ⟨a, Inventory.deleteOperation requestId d.key d.revision 0 true now, rfl,
            hrevision, ?_, trivial, rfl, ?_, ?_⟩
          · simp only [Artifact.requestable, howned, hkeep, hhold, Option.isNone_none, Bool.not_false,
              Bool.and_true, Bool.true_and, decide_eq_true_eq]
            exact hstate
          · simp [commit, Write.apply]
          · simp

theorem inv_expire (h : s.Inv) {d : Due} {ds : List Due} (hdue : s.due = d :: ds) (n : Nat)
    (now : Int) : (s.expire d ds n now).Inv := by
  have hrest : ∀ d' ∈ ds, d' ∈ s.due := fun d' hd' => hdue ▸ mem_cons_of_mem _ hd'
  rcases expire_cases s d ds n now with ⟨hinv, hexpiries⟩ |
    ⟨a, op, ha, hrevision, hrequestable, hfits, hauto, hinv, hexpiries⟩
  · exact ⟨hinv ▸ h.tidy, h.past, hinv ▸ h.counted, hinv ▸ h.seen, hinv ▸ h.clocks,
      fun d' hd' => hinv ▸ h.due d' (hrest d' hd'), hexpiries ▸ h.ripe,
      hexpiries ▸ hinv ▸ h.requested⟩
  · have hrow : ∀ key, (s.expire d ds n now).inventory.artifact key = s.inventory.artifact key :=
      fun key => by rw [hinv]; rfl
    refine ⟨?_, h.past, ?_, ?_, ?_, ?_, ?_, ?_⟩
    · rw [hinv]
      refine ⟨h.tidy.keys, h.tidy.periods, h.tidy.copies, fun op' hop' => ?_, h.tidy.days⟩
      rcases Table.mem_put hop' with rfl | ⟨hold, -⟩
      · exact hfits
      · exact h.tidy.requests op' hold
    · exact fun key b hb => h.counted key b ((hrow key).symm.trans hb)
    · intro key l ls hl hsaw hprocess
      rw [hrow]
      exact h.seen key l ls hl hsaw hprocess
    · intro key point hpoint
      rw [hrow]
      exact h.clocks key point hpoint
    · intro d' hd'
      rw [hrow]
      exact h.due d' (hrest d' hd')
    · intro e he
      rw [hexpiries] at he
      rcases mem_cons.mp he with rfl | he
      · -- the row is still as the tick has found it
        obtain ⟨-, b, hb, hstands⟩ := h.due d (hdue ▸ mem_cons_self)
        obtain rfl := Option.some.inj (ha.symm.trans hb)
        rcases hstands with hlt | ⟨-, hidle | ⟨heligible, hobserved, hdeadline⟩⟩
        · omega
        · rw [hrequestable] at hidle
          cases hidle
        · exact ⟨heligible, hobserved, hdeadline⟩
      · exact h.ripe e he
    · intro op' hop' key revision hauto'
      rw [hinv] at hop'
      rw [hexpiries]
      rcases Table.mem_put hop' with rfl | ⟨hold, -⟩
      · rw [hauto] at hauto'
        obtain ⟨rfl, rfl⟩ := Prod.mk.inj (Option.some.inj hauto')
        exact ⟨_, mem_cons_self, Table.key_of_get ha, hrevision⟩
      · obtain ⟨e, he, hrest⟩ := h.requested op' hold key revision hauto'
        exact ⟨e, mem_cons_of_mem _ he, hrest⟩

/-! ### A run -/

theorem inv_restart (h : s.Inv) : (s.step .restart).Inv where
  tidy := h.tidy
  past key l hl := (h.past key l hl).trans (Nat.le_succ _)
  counted := h.counted
  seen key l ls hl _ hprocess := by
    have hpast := h.past key l (by
      rw [show s.looks key = l :: ls from hl]
      exact mem_cons_self)
    have hnow : l.process = s.process + 1 := hprocess
    omega
  clocks key point hpoint := by cases hpoint
  due d hd := by cases hd
  ripe := h.ripe
  requested := h.requested

theorem inv_step (h : s.Inv) (i : WatchStep) (hok : s.Allowed i) : (s.step i).Inv := by
  cases i with
  | rows c n => exact inv_turn h (turned_commit h.tidy (sound_txs h.tidy hok) n)
  | executeDelete key w =>
    have hturn := inv_turn h (turned_executeDelete h.tidy w s.disk key)
    exact { hturn with }
  | outside disk => exact { h with }
  | settings =>
    exact ⟨h.tidy, h.past, h.counted, h.seen, h.clocks, fun d hd => (by cases hd), h.ripe,
      h.requested⟩
  | tick p =>
    cases henabled : s.enabled with
    | none =>
      simp only [step, henabled]
      exact h
    | some enabled =>
      simp only [step, henabled]
      exact (inv_tick h enabled p).1
  | expire n now =>
    cases hdue : s.due with
    | nil =>
      simp only [step, hdue]
      exact h
    | cons d ds =>
      simp only [step, hdue]
      exact inv_expire h hdue n now
  | restart => exact inv_restart h

/-- **A policy that changes starts the count again.** -/
theorem restarts_turn (hturned : Turned s.inventory inv) {key : Text} {a a' : Artifact}
    (ha : s.inventory.artifact key = some a) (ha' : inv.artifact key = some a')
    (heligible : a'.eligible = true) (hpolicy : a'.policy ≠ a.policy) : a'.eligibleSeconds = 0 := by
  rcases hturned.rows key with hsame | ⟨b, hb, rfl, hfollows⟩
  · obtain rfl := Option.some.inj ((ha.symm.trans hsame.symm).trans ha')
    exact absurd rfl hpolicy
  · obtain rfl := Option.some.inj (hb.symm.trans ha')
    obtain ⟨c, hc, ⟨-, hzero⟩ | ⟨hsame, -⟩⟩ := hfollows.count heligible
    · exact hzero
    · obtain rfl := Option.some.inj (hc.symm.trans ha)
      exact absurd hsame hpolicy

theorem restarts_step (h : s.Inv) (i : WatchStep) (hok : s.Allowed i) {key : Text}
    {a a' : Artifact} (ha : s.inventory.artifact key = some a)
    (ha' : (s.step i).inventory.artifact key = some a') (heligible : a'.eligible = true)
    (hpolicy : a'.policy ≠ a.policy) : a'.eligibleSeconds = 0 := by
  have hsame : (s.step i).inventory.artifact key = s.inventory.artifact key → False := fun he => by
    obtain rfl := Option.some.inj ((ha.symm.trans he.symm).trans ha')
    exact hpolicy rfl
  cases i with
  | rows c n =>
    exact restarts_turn (turned_commit h.tidy (sound_txs h.tidy hok) n) ha ha' heligible hpolicy
  | executeDelete k w =>
    exact restarts_turn (turned_executeDelete h.tidy w s.disk k) ha ha' heligible hpolicy
  | outside disk => exact (hsame rfl).elim
  | settings => exact (hsame rfl).elim
  | tick p =>
    cases henabled : s.enabled with
    | none => exact (hsame (by simp only [step, henabled])).elim
    | some enabled =>
      simp only [step, henabled] at ha'
      obtain ⟨rows, hrows, holder⟩ := (inv_tick h enabled p).2
      obtain ⟨b, hb, hkept, -⟩ := holder.row hrows ha
      obtain rfl := Option.some.inj (hb.symm.trans ha')
      exact absurd hkept hpolicy
  | expire n now =>
    refine (hsame ?_).elim
    cases hdue : s.due with
    | nil => simp only [step, hdue]
    | cons d ds =>
      simp only [step, hdue]
      rcases expire_cases s d ds n now with ⟨hinv, -⟩ | ⟨_, _, _, _, _, _, _, hinv, -⟩
      · rw [hinv]
      · rw [hinv]
        rfl
  | restart => exact (hsame rfl).elim

end Step

end Watch

/-- **Nothing expires that has not been observed for its period** since its policy last changed. -/
theorem earned_of_run {s : Watch} (h : s.Reached) : s.Earned := by
  have hinv : s.Inv := by
    refine Run.invariant (P := Watch.Inv) (fun _ hs => Watch.inv_of_start hs) ?_ h
    rintro s i _ hs hok rfl
    exact Watch.inv_step hs i hok
  exact {
    ripe := hinv.ripe
    requested := hinv.requested
    counted := hinv.counted
    restarts := fun i hok _ _ _ => Watch.restarts_step hinv i hok
    exact := fun a ha => ⟨Artifact.eligibleSeconds_aged (hinv.tidy.periods a ha),
      fun _ => Artifact.earliestExpiry_eq (hinv.tidy.periods a ha)⟩ }

/-! ### Two runs -/

/-- A parked payload that expires after a hundred seconds. -/
def expiring : Watch where
  inventory := { parked.inventory with
    settings := ⟨true, 7⟩
    artifacts := [{ parkedArtifact with retentionSeconds := 100, deadline := some 100 }] }
  disk := parkedDisk
  process := 0
  clocks := fun _ => none
  enabled := none
  due := []
  looks := fun _ => []
  expiries := []

theorem start_expiring : expiring.Start where
  tidy :=
    { keys := by decide +kernel
      periods := by decide +kernel
      copies := fun a ha hcopy => by
        obtain rfl := mem_singleton.mp ha
        cases hcopy
      requests := fun _ h => by cases h
      days := by decide +kernel }
  uncounted := by decide +kernel
  requests _ h := by cases h
  clocks _ := rfl
  due := rfl
  looks _ := rfl
  expiries := rfl

def tickAt (seconds : Nat) : List WatchStep :=
  [.settings, .tick {
    entered := fun _ => seconds * nanos
    read := fun _ => seconds * nanos
    marked := fun _ => seconds * nanos
    wall := fun _ => seconds
    stopped := none
    committed := true }]

def seenOut : List WatchStep := tickAt 10 ++ tickAt 110 ++ [.expire 1 110]

theorem earned_of_run_seenOut :
    let s := seenOut.foldl Watch.step expiring
    s.Reached ∧ s.expiries.map (fun e => (e.observed, e.latest)) = [(100, 100)] ∧ s.Earned := by
  have hreached : (seenOut.foldl Watch.step expiring).Reached := by
    refine Run.foldl (.start start_expiring) (throughout_of_forall (fun i hi t => ?_) _)
    simp only [seenOut, tickAt, cons_append, nil_append, mem_cons, not_mem_nil,
      or_false] at hi
    rcases hi with rfl | rfl | rfl | rfl | rfl <;> trivial
  exact ⟨hreached, by decide +kernel, earned_of_run hreached⟩

/-- In between comes an inspection, and it finds the files as they were. -/
def inspected : List WatchStep :=
  tickAt 10 ++ tickAt 60 ++ [.rows (.inspect (text "a") (some parkedArtifact.files) 60) 1] ++
    tickAt 70 ++ tickAt 120 ++ [.expire 1 120]

/-- **An inspection does not start the count again.**  The revision has been the same for half of
the period only. -/
theorem counted_over_revisions :
    ¬∀ s : Watch, s.Reached → ∀ e ∈ s.expiries, e.artifact.retentionSeconds ≤ e.latest := by
  intro h
  have hreached : (inspected.foldl Watch.step expiring).Reached := by
    refine Run.foldl (.start start_expiring) (throughout_of_forall (fun i hi t => ?_) _)
    simp only [inspected, tickAt, cons_append, nil_append, mem_cons,
      not_mem_nil, or_false] at hi
    rcases hi with rfl | rfl | rfl | rfl | rfl | rfl | rfl | rfl | rfl | rfl <;> trivial
  have hshort : ∃ e ∈ (inspected.foldl Watch.step expiring).expiries,
      e.latest < e.artifact.retentionSeconds := by decide +kernel
  obtain ⟨e, he, hlt⟩ := hshort
  have := h _ hreached e he
  omega

end Nzbd.Artifacts
