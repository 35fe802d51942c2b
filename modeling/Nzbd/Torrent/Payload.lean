import Nzbd.Lib.Links
import Nzbd.Torrent.Executor

/-!
# What a removal may delete

Before the data of a torrent are deleted, their path has to lie in one of the roots and every
file of the record below it.  The paths are compared as they are written, without `..`, and then
once more as far as they are there, with the links on the way followed.

The removal should stay `Confined`.  It does if it is `Traceable`: the check follows every path
to where it leads, and what it finds for the path of the torrent is no root (`confined_iff`).  It
does not follow a link that leads nowhere: it takes the directory of the link in its place.  Nor
does it see a link that `..` takes back.
-/

namespace Nzbd.Torrent

open Links hiding Part Path Tree normalize

def Component.part : Component → Links.Part Text
  | .rootDir => .root
  | .curDir => .here
  | .parentDir => .up
  | .normal name => .name name

def parts (path : PathBuf) : List (Links.Part Text) := path.map Component.part

def normalizeAbsolute (path : PathBuf) : Option (Links.Path Text) :=
  if isAbsolute path then Links.normalize (parts path) else none

def payloadIsWithinRoot (t : Links.Tree Text) (path root : PathBuf) : Bool :=
  match normalizeAbsolute path, normalizeAbsolute root with
  | some path, some root =>
    root.isPrefixOf path &&
      match canonicalize t (absolute root), nearest t path with
      | some canonicalRoot, some canonicalExisting => canonicalRoot.isPrefixOf canonicalExisting
      | _, _ => false
  | _, _ => false

/-- All that may be deleted. -/
def payload (contentPath : PathBuf) (files : List TorrentFileRecord) : List PathBuf :=
  contentPath :: files.map fun f => contentPath ++ f.path

section Claim

variable (t : Links.Tree Text) (roots : List PathBuf)

/-- What the check finds is where the path leads. -/
structure Followed (path : PathBuf) : Prop where
  straight : Straight t (parts path)
  alive : ∀ q, normalizeAbsolute path = some q → ¬DeadLink t q
  roots : ∀ root ∈ roots, Straight t (parts root)

/-- **The condition.**  The check finds where every path leads; and what is there of the path of the
torrent, with the names behind it, is not where a root is. -/
structure Traceable (contentPath : PathBuf) (files : List TorrentFileRecord) : Prop where
  followed : ∀ path ∈ payload contentPath files, Followed t roots path
  other : ∀ p s, normalizeAbsolute contentPath = some (p ++ s) →
    ∀ c, canonicalize t (absolute p) = some c →
      (∀ n, s.head? = some n → canonicalize t (absolute (p ++ [n])) = none) →
        ∀ root ∈ roots, resolve t (parts root) ≠ some (c ++ s)

end Claim

/-! ### The check -/

variable {t : Links.Tree Text} {roots : List PathBuf} {path root contentPath : PathBuf}
  {files : List TorrentFileRecord} {q c d : Links.Path Text}

theorem resolve_of_straight (h : Straight t (parts path)) (hq : normalizeAbsolute path = some q) :
    resolve t (parts path) = resolve t (absolute q) := by
  unfold normalizeAbsolute at hq
  split at hq
  · next habsolute =>
    have hroot : (parts path).head? = some .root := by
      rw [isAbsolute, decide_eq_true_eq] at habsolute
      rw [parts, List.head?_map, habsolute]
      rfl
    rw [resolve, walk_of_straight h hroot hq]
    rfl
  · cases hq

theorem Followed.resolve_append {p s : Links.Path Text} (h : Followed t roots path)
    (hq : normalizeAbsolute path = some (p ++ s)) (hp : canonicalize t (absolute p) = some d)
    (hnext : ∀ n, s.head? = some n → canonicalize t (absolute (p ++ [n])) = none) :
    resolve t (parts path) = some (d ++ s) := by
  rw [resolve_of_straight h.straight hq]
  exact Links.resolve_append hp hnext (h.alive _ hq)

theorem Traceable.apart (h : Traceable t roots contentPath files) (hroot : root ∈ roots)
    (hq : normalizeAbsolute contentPath = some q) (hd : nearest t q = some d) (c : Links.Path Text)
    (hc : resolve t (parts root) = some c) : resolve t (parts contentPath) ≠ some c := by
  obtain ⟨p, s, rfl, hp, hnext⟩ := nearest_eq_some hd
  rw [(h.followed _ List.mem_cons_self).resolve_append hq hp hnext]
  exact fun heq => h.other p s hq d hp hnext root hroot (hc.trans heq.symm)

end Nzbd.Torrent
