import Mathlib.Data.List.Infix

/-!
# Paths through symbolic links

A path leads from directory to directory, and where a link stands on the way it goes on with what
the link says.  `resolve` is where it leads, and `canonicalize` is the same if everything on the
way is there.  Only so many links are followed (`Tree.limit`), and so a circle of links leads
nowhere.

`normalize` goes by the names alone, and `..` takes the name before it back.  It keeps the place
if what is taken back is not a link (`walk_of_straight`).  `nearest` is the longest part of a
path that can be canonicalized; what comes behind is not there and only has to be appended,
unless a link is there that leads nowhere (`resolve_append`).
-/

namespace Links

open List

variable {ν : Type*}

abbrev Path (ν : Type*) := List ν

/-- A part of a path as it is written. -/
inductive Part (ν : Type*)
  | root
  | here
  | up
  | name (n : ν)
  deriving DecidableEq

inductive Node (ν : Type*)
  | dir
  | file
  | link (target : List (Part ν))
  deriving DecidableEq

structure Tree (ν : Type*) where
  node : Path ν → Option (Node ν)
  root : node [] = some .dir
  above : ∀ p n, node (p ++ [n]) ≠ none → node p = some .dir
  /-- How many links are followed for one path. -/
  limit : Nat
  /-- Where a path begins that does not begin with the root. -/
  cwd : Path ν

def absolute (q : Path ν) : List (Part ν) := .root :: q.map .name

/-! ### The walk -/

section Walk

variable (t : Tree ν)

def Tree.isDir (p : Path ν) : Bool :=
  match t.node p with
  | some .dir => true
  | _ => false

/-- Up to the next link, which is left to `follow`. -/
def walkWith (strict : Bool) (follow : Path ν → List (Part ν) → Option (Path ν × Nat)) (left : Nat) :
    Path ν → List (Part ν) → Option (Path ν × Nat)
  | p, [] => some (p, left)
  | _, .root :: xs => walkWith strict follow left [] xs
  | p, .here :: xs => if strict && !t.isDir p then none else walkWith strict follow left p xs
  | p, .up :: xs => if strict && !t.isDir p then none else walkWith strict follow left p.dropLast xs
  | p, .name n :: xs =>
    match t.node (p ++ [n]) with
    | none => if strict then none else walkWith strict follow left (p ++ [n]) xs
    | some (.link target) => follow p (target ++ xs)
    | some _ => walkWith strict follow left (p ++ [n]) xs

/-- From a place along a path, with the links that may still be followed, there and then.  A strict
walk fails at what is not there. -/
def walk (strict : Bool) : Nat → Path ν → List (Part ν) → Option (Path ν × Nat)
  | 0 => walkWith t strict (fun _ _ => none) 0
  | k + 1 => walkWith t strict (walk strict k) (k + 1)

def canonicalize (xs : List (Part ν)) : Option (Path ν) := (walk t true t.limit t.cwd xs).map (·.1)

def resolve (xs : List (Part ν)) : Option (Path ν) := (walk t false t.limit t.cwd xs).map (·.1)

variable {t} {strict : Bool} {k : Nat} {p : Path ν} {n : ν} {xs ys : List (Part ν)}

@[simp] theorem walk_nil : walk t strict k p [] = some (p, k) := by
  cases k <;> rfl

@[simp] theorem walk_root : walk t strict k p (.root :: xs) = walk t strict k [] xs := by
  cases k <;> rfl

@[simp] theorem walk_here : walk t strict k p (.here :: xs) =
    if strict && !t.isDir p then none else walk t strict k p xs := by
  cases k <;> rfl

@[simp] theorem walk_up : walk t strict k p (.up :: xs) =
    if strict && !t.isDir p then none else walk t strict k p.dropLast xs := by
  cases k <;> rfl

theorem walk_missing (h : t.node (p ++ [n]) = none) : walk t strict k p (.name n :: xs) =
    if strict then none else walk t strict k (p ++ [n]) xs := by
  cases k <;> simp only [walk, walkWith, h]

theorem walk_link {target : List (Part ν)} (h : t.node (p ++ [n]) = some (.link target)) :
    walk t strict k p (.name n :: xs) =
      match k with
      | 0 => none
      | k + 1 => walk t strict k p (target ++ xs) := by
  cases k <;> simp only [walk, walkWith, h]

theorem walk_name {x : Node ν} (h : t.node (p ++ [n]) = some x) (hx : ∀ target, x ≠ .link target) :
    walk t strict k p (.name n :: xs) = walk t strict k (p ++ [n]) xs := by
  cases x with
  | link target => exact absurd rfl (hx target)
  | dir => cases k <;> simp only [walk, walkWith, h]
  | file => cases k <;> simp only [walk, walkWith, h]

theorem walk_append : walk t strict k p (xs ++ ys) =
    (walk t strict k p xs).bind fun r => walk t strict r.2 r.1 ys := by
  induction k using Nat.strongRecOn generalizing p xs with
  | ind k ihk =>
    induction xs generalizing p with
    | nil => simp
    | cons x xs ih =>
      rw [cons_append]
      cases x with
      | root => simp only [walk_root, ih]
      | here =>
        simp only [walk_here, ih]
        split <;> rfl
      | up =>
        simp only [walk_up, ih]
        split <;> rfl
      | name n =>
        cases hnode : t.node (p ++ [n]) with
        | none =>
          simp only [walk_missing hnode, ih]
          split <;> rfl
        | some x =>
          cases x with
          | link target =>
            simp only [walk_link hnode]
            cases k with
            | zero => rfl
            | succ k =>
              rw [← append_assoc]
              exact ihk k (Nat.lt_succ_self k)
          | dir => simp only [walk_name hnode (fun _ => by simp), ih]
          | file => simp only [walk_name hnode (fun _ => by simp), ih]

theorem walk_of_strict {r : Path ν × Nat} (h : walk t true k p xs = some r) :
    walk t false k p xs = some r := by
  induction k using Nat.strongRecOn generalizing p xs with
  | ind k ihk =>
    induction xs generalizing p with
    | nil => simpa using h
    | cons x xs ih =>
      cases x with
      | root =>
        rw [walk_root] at h ⊢
        exact ih h
      | here =>
        rw [walk_here] at h ⊢
        split at h
        · cases h
        · exact ih h
      | up =>
        rw [walk_up] at h ⊢
        split at h
        · cases h
        · exact ih h
      | name n =>
        cases hnode : t.node (p ++ [n]) with
        | none => simp [walk_missing hnode] at h
        | some x =>
          cases x with
          | link target =>
            rw [walk_link hnode] at h ⊢
            cases k with
            | zero => cases h
            | succ k => exact ihk k (Nat.lt_succ_self k) h
          | dir =>
            rw [walk_name hnode fun _ => by simp] at h ⊢
            exact ih h
          | file =>
            rw [walk_name hnode fun _ => by simp] at h ⊢
            exact ih h

theorem resolve_of_canonicalize {c : Path ν} (h : canonicalize t xs = some c) :
    resolve t xs = some c := by
  obtain ⟨r, hr, rfl⟩ := Option.map_eq_some_iff.mp h
  rw [resolve, walk_of_strict hr, Option.map_some]

theorem node_append_eq_none (h : t.node p = none) : t.node (p ++ [n]) = none := by
  by_contra hne
  rw [t.above p n hne] at h
  cases h

theorem walk_of_missing {s : Path ν} (h : t.node p = none) :
    walk t false k p (s.map .name) = some (p ++ s, k) := by
  induction s generalizing p with
  | nil => simp
  | cons m s ih =>
    rw [map_cons, walk_missing (node_append_eq_none h), if_neg Bool.false_ne_true,
      ih (node_append_eq_none h), append_assoc, singleton_append]

end Walk

/-! ### Names alone -/

section Normalize

/-- One part more, behind the names so far. -/
def normalizeStep (q : Path ν) : Part ν → Option (Path ν)
  | .root => some []
  | .here => some q
  | .up => if q.isEmpty then none else some q.dropLast
  | .name n => some (q ++ [n])

/-- Without a look; `..` takes back the name before it, if there is one. -/
def normalize (xs : List (Part ν)) : Option (Path ν) := xs.foldlM normalizeStep []

/-- What is taken back is not a link, and the root is nowhere but in front. -/
structure Straight (t : Tree ν) (xs : List (Part ν)) : Prop where
  rooted : ∀ a b, xs = a ++ .root :: b → a = []
  back : ∀ a b, xs = a ++ .up :: b → ∀ q n, normalize a = some (q ++ [n]) →
    ∀ c, resolve t (absolute q) = some c → ∀ target, t.node (c ++ [n]) ≠ some (.link target)

variable {t : Tree ν} {xs ys : List (Part ν)} {q : Path ν} {n : ν}

theorem normalize_append : normalize (xs ++ ys) = (normalize xs).bind (ys.foldlM normalizeStep) :=
  foldlM_append

theorem absolute_append (s : Path ν) : absolute (q ++ s) = absolute q ++ s.map .name := by
  simp [absolute]

theorem Straight.of_append (h : Straight t (xs ++ ys)) : Straight t xs where
  rooted a b heq := h.rooted a (b ++ ys) (by simp [heq])
  back a b heq := h.back a (b ++ ys) (by simp [heq])

theorem walk_of_straight (h : Straight t xs) (hroot : xs.head? = some .root)
    (hq : normalize xs = some q) :
    walk t false t.limit t.cwd xs = walk t false t.limit t.cwd (absolute q) := by
  induction xs using reverseRecOn generalizing q with
  | nil => cases hroot
  | append_singleton xs x ih =>
    rw [normalize_append] at hq
    obtain ⟨q', hq', hstep⟩ := Option.bind_eq_some_iff.mp hq
    simp only [foldlM_cons, foldlM_nil, Option.bind_eq_bind, Option.pure_def] at hstep
    rcases eq_nil_or_concat' xs with rfl | ⟨xs', y, rfl⟩
    · obtain rfl : x = .root := by simpa using hroot
      obtain rfl : [] = q := by simpa [normalizeStep] using hstep
      rfl
    have hstart : (xs' ++ [y]).head? = some Part.root := by
      cases xs' <;> simpa using hroot
    have hwalk := ih h.of_append hstart hq'
    rw [walk_append, hwalk]
    cases x with
    | root => exact absurd (h.rooted _ [] rfl) (by simp)
    | here =>
      obtain rfl : q' = q := by simpa [normalizeStep] using hstep
      cases walk t false t.limit t.cwd (absolute q') <;> simp
    | name n =>
      obtain rfl : q' ++ [n] = q := by simpa [normalizeStep] using hstep
      rw [absolute_append, walk_append]
      rfl
    | up =>
      rcases eq_nil_or_concat' q' with rfl | ⟨q'', n, rfl⟩
      · simp [normalizeStep] at hstep
      obtain rfl : q'' = q := by simpa [normalizeStep] using hstep
      rw [absolute_append, walk_append]
      cases hplace : walk t false t.limit t.cwd (absolute q'') with
      | none => rfl
      | some r =>
        have hresolve : resolve t (absolute q'') = some r.1 := by rw [resolve, hplace]; rfl
        have hnode := h.back _ [] rfl q'' n hq' r.1 hresolve
        -- the name before is not a link, so that it can be taken back
        have hname : walk t false r.2 r.1 [.name n] = some (r.1 ++ [n], r.2) := by
          cases hthere : t.node (r.1 ++ [n]) with
          | none => rw [walk_missing hthere, if_neg Bool.false_ne_true, walk_nil]
          | some x =>
            rw [walk_name hthere fun target heq => hnode target (heq ▸ hthere), walk_nil]
        simp [hname]

end Normalize

/-! ### As far as it is there -/

section Nearest

variable (t : Tree ν)

/-- The path backwards, and then what is in front of its last name. -/
def nearestBack : List ν → Option (Path ν)
  | [] => canonicalize t (absolute [])
  | n :: r => (canonicalize t (absolute (n :: r).reverse)).or (nearestBack r)

def nearest (q : Path ν) : Option (Path ν) := nearestBack t q.reverse

/-- A link is there that leads nowhere. -/
def DeadLink (q : Path ν) : Prop :=
  ∃ p n s c target, q = p ++ n :: s ∧ canonicalize t (absolute p) = some c ∧
    t.node (c ++ [n]) = some (.link target) ∧ canonicalize t (absolute (p ++ [n])) = none

variable {t} {q c : Path ν}

theorem nearest_concat (n : ν) : nearest t (q ++ [n]) =
    (canonicalize t (absolute (q ++ [n]))).or (nearest t q) := by
  rw [nearest, reverse_append, reverse_singleton, singleton_append, nearestBack,
    reverse_cons, reverse_reverse]
  rfl

theorem nearest_eq_some (h : nearest t q = some c) : ∃ p s, q = p ++ s ∧
    canonicalize t (absolute p) = some c ∧
    ∀ n, s.head? = some n → canonicalize t (absolute (p ++ [n])) = none := by
  induction q using reverseRecOn with
  | nil => exact ⟨[], [], rfl, h, by simp⟩
  | append_singleton q n ih =>
    rw [nearest_concat, Option.or_eq_some_iff] at h
    rcases h with h | ⟨hnone, h⟩
    · exact ⟨q ++ [n], [], by simp, h, by simp⟩
    · obtain ⟨p, s, rfl, hp, hnext⟩ := ih h
      refine ⟨p, s ++ [n], by simp, hp, fun m hm => ?_⟩
      cases s with
      | nil =>
        obtain rfl : n = m := by simpa using hm
        simpa using hnone
      | cons k s => exact hnext m (by simpa using hm)

/-- **What is behind the part that is there is appended to it**, if no link is there that leads
nowhere. -/
theorem resolve_append {p s : Path ν} (hp : canonicalize t (absolute p) = some c)
    (hnext : ∀ n, s.head? = some n → canonicalize t (absolute (p ++ [n])) = none)
    (hdead : ¬DeadLink t (p ++ s)) : resolve t (absolute (p ++ s)) = some (c ++ s) := by
  cases s with
  | nil => simpa using resolve_of_canonicalize hp
  | cons n s =>
    have hnone := hnext n rfl
    obtain ⟨r, hr, rfl⟩ := Option.map_eq_some_iff.mp hp
    rw [absolute_append, canonicalize, walk_append, hr] at hnone
    simp only [Option.bind_some, map_cons, map_nil] at hnone
    have hmissing : t.node (r.1 ++ [n]) = none := by
      cases hnode : t.node (r.1 ++ [n]) with
      | none => rfl
      | some x =>
        cases x with
        | link target =>
          refine absurd ⟨p, n, s, r.1, target, rfl, hp, hnode, ?_⟩ hdead
          rw [absolute_append, canonicalize, walk_append, hr]
          exact hnone
        | dir => simp [walk_name hnode fun _ => by simp] at hnone
        | file => simp [walk_name hnode fun _ => by simp] at hnone
    rw [absolute_append, resolve, walk_append, walk_of_strict hr, Option.bind_some, map_cons,
      walk_missing hmissing, if_neg Bool.false_ne_true, walk_of_missing hmissing]
    simp

end Nearest
/-! ### A tree from a list -/

section Entries

variable [DecidableEq ν]

def Tree.ofEntries (entries : List (Path ν × Node ν)) (limit : Nat)
    (root : entries.lookup [] = some .dir)
    (above : ∀ e ∈ entries, e.1 ≠ [] → entries.lookup e.1.dropLast = some .dir) : Tree ν where
  node p := entries.lookup p
  root := root
  above p n h := by
    obtain ⟨x, hx⟩ := Option.ne_none_iff_exists'.mp h
    obtain ⟨before, after, heq, -⟩ := List.lookup_eq_some_iff.mp hx
    have hdir := above (p ++ [n], x) (by simp [heq]) (by simp)
    rwa [List.dropLast_concat] at hdir
  limit := limit
  cwd := []

end Entries
end Links
