import Nzbd.Config.Validate

/-!
# Masked secrets

The settings editor is shown the configuration with a mask for every secret, and what it
sends back has the masks in it.  `mergeMaskedSecrets` puts the secrets of the configuration
in use in their place: for a server those of the first server with its name, or, where it
has no name or no server has it, those of the server at its place in the list.  A mask for
which there is nothing is left and reported.

An edit moves the entries of the list about, so `Edited` carries with each entry where it was
displayed.  `masks_kept_iff` says when an edit gives every server its own password back: if
and only if the name, or else the place, finds the right server.
-/

namespace Nzbd.Config

open List

def mask (v : Option Text) : Option Text := if v.isSome then some secretMask else none

def ServerConfig.withPassword (s : ServerConfig) (v : Option Text) : ServerConfig :=
  { s with password := v }

def maskServer (s : ServerConfig) : ServerConfig := s.withPassword (mask s.password)

def maskSecrets (cfg : Config) : Config :=
  { cfg with
    servers := cfg.servers.map maskServer
    api := { cfg.api with password := mask cfg.api.password, token := mask cfg.api.token }
    cluster := { cfg.cluster with secret := mask cfg.cluster.secret }
    torrent := { cfg.torrent with socksProxyPassword := mask cfg.torrent.socksProxyPassword } }

def namesake (old : List ServerConfig) (name : Text) : Option ServerConfig :=
  old.find? fun o => o.name ≠ [] && o.name = name

/-- Whose password a mask at this place stands for. -/
def previous (old : List ServerConfig) (i : Nat) (s : ServerConfig) : Option ServerConfig :=
  (namesake old s.name).or old[i]?

def mergeServer (old : List ServerConfig) (i : Nat) (s : ServerConfig) : ServerConfig × List Text :=
  if isMask s.password then
    match (previous old i s).bind (·.password) with
    | some pw => (s.withPassword (some pw), [])
    | none => (s, [serverPassword s])
  else (s, [])

def restore (cur prev : Option Text) (what : Text) : Option Text × List Text :=
  if isMask cur then
    match prev with
    | some v => (some v, [])
    | none => (cur, [what])
  else (cur, [])

/-- The secrets put back, and the fields whose mask is still there. -/
def mergeMaskedSecrets (new old : Config) : Config × List Text :=
  let servers := new.servers.mapIdx (mergeServer old.servers)
  let password := restore new.api.password old.api.password (text "[api] password")
  let token := restore new.api.token old.api.token (text "[api] token")
  let secret := restore new.cluster.secret old.cluster.secret (text "[cluster] secret")
  let proxy := restore new.torrent.socksProxyPassword old.torrent.socksProxyPassword
    (text "[torrent] socks_proxy_password")
  ({ new with
      servers := servers.map (·.1)
      api := { new.api with password := password.1, token := token.1 }
      cluster := { new.cluster with secret := secret.1 }
      torrent := { new.torrent with socksProxyPassword := proxy.1 } },
    servers.flatMap (·.2) ++ password.2 ++ token.2 ++ secret.2 ++ proxy.2)

/-! ### Back and forth -/

/-- Nothing is lost between display and save. -/
def RoundTrips (c : Config) : Prop := mergeMaskedSecrets (maskSecrets c) c = (c, [])

/-- The password of a server is that of the first one of its name. -/
def NamesTell (c : Config) : Prop :=
  ∀ s ∈ c.servers, ∀ o, namesake c.servers s.name = some o → s.password.isSome →
    o.password = s.password

section RoundTrip

variable {old : List ServerConfig} {s : ServerConfig} {i : Nat}

@[simp] theorem withPassword_password (v : Option Text) : (s.withPassword v).password = v := rfl

@[simp] theorem withPassword_withPassword (v w : Option Text) :
    (s.withPassword v).withPassword w = s.withPassword w := rfl

@[simp] theorem withPassword_self : s.withPassword s.password = s := rfl

theorem isMask_mask (v : Option Text) : isMask (mask v) = v.isSome := by
  cases v <;> rfl

theorem restore_mask {v : Option Text} (what : Text) : restore (mask v) v what = (v, []) := by
  unfold restore
  rw [isMask_mask]
  cases v <;> rfl

theorem mergeServer_of_not_mask (h : isMask s.password = false) : mergeServer old i s = (s, []) := by
  rw [mergeServer, if_neg (by rw [h]; decide)]

theorem mergeServer_of_mask (h : isMask s.password = true) : mergeServer old i s =
    match (previous old i s).bind (·.password) with
    | some pw => (s.withPassword (some pw), [])
    | none => (s, [serverPassword s]) := by
  rw [mergeServer, if_pos h]

theorem mergeServer_maskServer (hi : old[i]? = some s) : mergeServer old i (maskServer s) = (s, []) ↔
    ∀ o, namesake old s.name = some o → s.password.isSome → o.password = s.password := by
  have hmask : isMask (maskServer s).password = s.password.isSome := isMask_mask _
  have hprevious : previous old i (maskServer s) = (namesake old s.name).or (some s) := hi ▸ rfl
  cases hpw : s.password with
  | none =>
    have hsame : maskServer s = s := by
      rw [maskServer, hpw]
      exact congrArg s.withPassword hpw.symm
    rw [hpw] at hmask
    rw [mergeServer_of_not_mask hmask, hsame]
    simp
  | some pw =>
    rw [hpw] at hmask
    have hback (q : Text) : ((maskServer s).withPassword (some q), ([] : List Text)) = (s, []) ↔
        q = pw := by
      rw [Prod.mk.injEq, maskServer, withPassword_withPassword]
      constructor
      · rintro ⟨h, -⟩
        have := congrArg ServerConfig.password h
        rw [hpw] at this
        exact Option.some.inj this
      · rintro rfl
        exact ⟨by rw [← hpw, withPassword_self], rfl⟩
    rw [mergeServer_of_mask hmask, hprevious]
    cases namesake old s.name with
    | none =>
      rw [Option.none_or, Option.bind_some, hpw]
      simp [hback]
    | some o =>
      rw [Option.some_or, Option.bind_some]
      cases hq : o.password with
      | none => simp [hq]
      | some q => simp [hq, hback]

theorem roundTrips_iff (c : Config) : RoundTrips c ↔ NamesTell c := by
  have hservers : RoundTrips c ↔
      ((maskSecrets c).servers.mapIdx (mergeServer c.servers)) = c.servers.map fun s => (s, []) := by
    unfold RoundTrips mergeMaskedSecrets
    simp only [maskSecrets, restore_mask, append_nil]
    constructor
    · intro h
      obtain ⟨hfst, hsnd⟩ := Prod.mk.inj h
      have hlist := congrArg Config.servers hfst
      refine ext_getElem (by simp) fun n h1 h2 => ?_
      refine Prod.ext ?_ ?_
      · have := congrArg (·[n]?) hlist
        simpa [getElem?_eq_getElem, show n < c.servers.length by simpa using h2] using this
      · have hnil := flatMap_eq_nil_iff.mp hsnd _ (getElem_mem h1)
        simpa using hnil
    · intro h
      rw [h]
      simp [map_map, Function.comp_def]
  rw [hservers, NamesTell]
  constructor
  · intro h s hs
    obtain ⟨i, hi, rfl⟩ := getElem_of_mem hs
    refine (mergeServer_maskServer (getElem?_eq_getElem hi)).mp ?_
    have := congrArg (·[i]?) h
    simpa [maskSecrets, getElem?_eq_getElem, hi] using this
  · intro h
    refine ext_getElem (by simp [maskSecrets]) fun n h1 h2 => ?_
    have hn : n < c.servers.length := by simpa using h2
    have := (mergeServer_maskServer (getElem?_eq_getElem hn)).mpr (h _ (getElem_mem hn))
    simpa [maskSecrets] using this

end RoundTrip

/-! ### What is displayed -/

/-- Both are there or neither is. -/
def SameKind (v w : Option Text) : Prop := v.isSome = w.isSome

/-- The configurations differ in the values of secrets only. -/
structure OnlySecretsDiffer (c d : Config) : Prop where
  servers : List.Forall₂ (fun s t => s.withPassword none = t.withPassword none ∧
    SameKind s.password t.password) c.servers d.servers
  api : { c.api with password := none, token := none } = { d.api with password := none, token := none }
  apiPassword : SameKind c.api.password d.api.password
  apiToken : SameKind c.api.token d.api.token
  cluster : { c.cluster with secret := none } = { d.cluster with secret := none }
  secret : SameKind c.cluster.secret d.cluster.secret
  torrent : { c.torrent with socksProxyPassword := none } =
    { d.torrent with socksProxyPassword := none }
  proxyPassword : SameKind c.torrent.socksProxyPassword d.torrent.socksProxyPassword
  paths : c.paths = d.paths
  categories : c.categories = d.categories
  feeds : c.feeds = d.feeds
  queue : c.queue = d.queue
  post : c.post = d.post
  history : c.history = d.history

theorem SameKind.mask_eq {v w : Option Text} (h : SameKind v w) : mask v = mask w := by
  rw [mask, mask, show v.isSome = w.isSome from h]

/-- **What is displayed does not depend on the secrets.** -/
theorem maskSecrets_congr {c d : Config} (h : OnlySecretsDiffer c d) :
    maskSecrets c = maskSecrets d := by
  have hservers : c.servers.map maskServer = d.servers.map maskServer := by
    refine forall₂_eq_eq_eq ▸ forall₂_map_left_iff.mpr
      (forall₂_map_right_iff.mpr (h.servers.imp ?_))
    rintro s t ⟨hrest, hkind⟩
    have := congrArg (·.withPassword (mask s.password)) hrest
    rw [maskServer, maskServer, ← hkind.mask_eq]
    exact this
  have hapi : (maskSecrets c).api = (maskSecrets d).api := by
    change { c.api with password := mask c.api.password, token := mask c.api.token } =
      { d.api with password := mask d.api.password, token := mask d.api.token }
    rw [← h.apiPassword.mask_eq, ← h.apiToken.mask_eq]
    exact congrArg (fun a : ApiConfig =>
      { a with password := mask c.api.password, token := mask c.api.token }) h.api
  have hcluster : (maskSecrets c).cluster = (maskSecrets d).cluster := by
    change { c.cluster with secret := mask c.cluster.secret } =
      { d.cluster with secret := mask d.cluster.secret }
    rw [← h.secret.mask_eq]
    exact congrArg (fun a : ClusterConfig => { a with secret := mask c.cluster.secret }) h.cluster
  have htorrent : (maskSecrets c).torrent = (maskSecrets d).torrent := by
    change { c.torrent with socksProxyPassword := mask c.torrent.socksProxyPassword } =
      { d.torrent with socksProxyPassword := mask d.torrent.socksProxyPassword }
    rw [← h.proxyPassword.mask_eq]
    exact congrArg (fun a : TorrentConfig =>
      { a with socksProxyPassword := mask c.torrent.socksProxyPassword }) h.torrent
  have hext (a b : Config) (h1 : a.paths = b.paths) (h2 : a.servers = b.servers)
      (h3 : a.categories = b.categories) (h4 : a.feeds = b.feeds) (h5 : a.queue = b.queue)
      (h6 : a.api = b.api) (h7 : a.post = b.post) (h8 : a.history = b.history)
      (h9 : a.cluster = b.cluster) (h10 : a.torrent = b.torrent) : a = b := by
    cases a
    cases b
    simp_all
  exact hext _ _ h.paths hservers h.categories h.feeds h.queue hapi h.post h.history hcluster htorrent

/-! ### Edits -/

structure Edited where
  server : ServerConfig
  /-- Its place in the list that was displayed, unless it has been added. -/
  shown : Option Nat

/-- The password of the server that an entry was displayed for. -/
def Edited.own (e : Edited) (old : List ServerConfig) : Option Text :=
  (e.shown.bind fun k => old[k]?).bind (·.password)

/-- **What is claimed** of an edit: every mask becomes the password of the server it was
displayed for, or stays and is reported. -/
def Unmixed (c new : Config) (es : List Edited) : Prop :=
  ∀ (i : Nat) (e : Edited), es[i]? = some e → isMask e.server.password = true →
    ∀ s, (mergeMaskedSecrets new c).1.servers[i]? = some s →
      s.password.isSome ∧ s.password = e.own c.servers ∨
      s = e.server ∧ serverPassword s ∈ (mergeMaskedSecrets new c).2

/-- The name of an entry, or else its place, leads to a server without a password or to one
with the right password. -/
def RightlyMatched (c : Config) (es : List Edited) : Prop :=
  ∀ (i : Nat) (e : Edited), es[i]? = some e → isMask e.server.password = true →
    ∀ o, previous c.servers i e.server = some o → o.password.isSome →
      o.password = e.own c.servers

section Edits

variable {c new : Config} {es : List Edited}

theorem mem_previous {old : List ServerConfig} {i : Nat} {s o : ServerConfig}
    (h : previous old i s = some o) : o ∈ old := by
  rcases Option.or_eq_some_iff.mp h with h | ⟨-, h⟩
  · exact mem_of_find?_eq_some h
  · exact mem_of_getElem? h

theorem unmixed_iff (hc : Sound c) (hnew : new.servers = es.map (·.server)) :
    Unmixed c new es ↔ RightlyMatched c es := by
  have hentry (i : Nat) (e : Edited) (he : es[i]? = some e)
      (hmask : isMask e.server.password = true) :
      (∀ s, (mergeMaskedSecrets new c).1.servers[i]? = some s →
        s.password.isSome ∧ s.password = e.own c.servers ∨
        s = e.server ∧ serverPassword s ∈ (mergeMaskedSecrets new c).2) ↔
      ∀ o, previous c.servers i e.server = some o → o.password.isSome →
        o.password = e.own c.servers := by
    have hget : (mergeMaskedSecrets new c).1.servers[i]? =
        some (mergeServer c.servers i e.server).1 := by
      simp [mergeMaskedSecrets, hnew, he]
    have hreport : ∀ t ∈ (mergeServer c.servers i e.server).2, t ∈ (mergeMaskedSecrets new c).2 := by
      intro t ht
      have hin : mergeServer c.servers i e.server ∈ new.servers.mapIdx (mergeServer c.servers) := by
        refine mem_iff_getElem?.mpr ⟨i, ?_⟩
        simp [hnew, he]
      simp only [mergeMaskedSecrets, append_assoc]
      exact mem_append_left _ (mem_flatMap.mpr ⟨_, hin, ht⟩)
    rw [hget]
    simp only [Option.some.injEq, forall_eq']
    rw [mergeServer_of_mask hmask] at hreport ⊢
    cases ho : previous c.servers i e.server with
    | none =>
      rw [ho] at hreport
      simp only [Option.bind_none] at hreport ⊢
      simp [hreport]
    | some o =>
      rw [ho] at hreport
      simp only [Option.bind_some] at hreport ⊢
      cases hq : o.password with
      | none =>
        rw [hq] at hreport
        simp only at hreport ⊢
        simp [hreport, hq]
      | some q =>
        have hne : e.server.withPassword (some q) ≠ e.server := by
          intro h
          have hq' := congrArg ServerConfig.password h
          have hmasked : e.server.password = some secretMask := by simpa [isMask] using hmask
          rw [hmasked, withPassword_password] at hq'
          exact hc.servers o (mem_previous ho) (hq.trans hq')
        simp [hne, hq]
  constructor
  · exact fun h i e he hmask => (hentry i e he hmask).mp (h i e he hmask)
  · exact fun h i e he hmask => (hentry i e he hmask).mpr (h i e he hmask)

/-- **When masks keep the secrets apart.**  A configuration survives being displayed and
saved if and only if a name tells its password; what is displayed never depends on the
secrets; and an edit mixes no passwords up if and only if each mask leads to the right
server. -/
theorem masks_kept_iff {env : Env} (h : Valid env c) :
    (RoundTrips c ↔ NamesTell c) ∧
    (∀ d, OnlySecretsDiffer c d → maskSecrets c = maskSecrets d) ∧
    ∀ new es, new.servers = es.map Edited.server → (Unmixed c new es ↔ RightlyMatched c es) :=
  ⟨roundTrips_iff c, fun _ hd => maskSecrets_congr hd, fun _ _ hnew => unmixed_iff h.sound hnew⟩

end Edits

/-! ### Two servers -/

def noEnv : Env := ⟨none, fun _ => none⟩

def serverAt (name host password : String) : ServerConfig :=
  { defaultServer with
    name := text name
    host := text host
    password := some (text password) }

def withServers (servers : List ServerConfig) : Config := { default with servers := servers }

def unnamedServers : Config := withServers [serverAt "" "a.example" "s1", serverAt "" "b.example" "s2"]

/-- One name for both. -/
def namesakes : Config := withServers [serverAt "x" "a.example" "s1", serverAt "x" "b.example" "s2"]

def onlySecond : List Edited := [⟨maskServer (serverAt "" "b.example" "s2"), some 1⟩]

theorem masks_kept_unnamed : Valid noEnv unnamedServers ∧
    (RoundTrips unnamedServers ↔ NamesTell unnamedServers) ∧
    (Unmixed unnamedServers (withServers (onlySecond.map Edited.server)) onlySecond ↔
      RightlyMatched unnamedServers onlySecond) := by
  have hvalid : Valid noEnv unnamedServers := by decide +kernel
  obtain ⟨hround, -, hedit⟩ := masks_kept_iff hvalid
  exact ⟨hvalid, hround, hedit _ _ rfl⟩

/-- The server that is left gets the password of the one that was deleted; and of two servers
with one name the second gets that of the first. -/
theorem password_of_another :
    (Valid noEnv unnamedServers ∧
      ¬Unmixed unnamedServers (withServers (onlySecond.map Edited.server)) onlySecond) ∧
    Valid noEnv namesakes ∧ ¬RoundTrips namesakes := by
  refine ⟨⟨by decide +kernel, fun h => ?_⟩, by decide +kernel, ?_⟩
  · have hmerged : (mergeMaskedSecrets (withServers (onlySecond.map Edited.server))
        unnamedServers).1.servers[0]? = some (serverAt "" "b.example" "s1") := by decide +kernel
    rcases h 0 _ rfl (by decide +kernel) _ hmerged with ⟨-, hown⟩ | ⟨hsame, -⟩
    · exact absurd hown (by decide +kernel)
    · exact absurd hsame (by decide +kernel)
  · unfold RoundTrips
    decide +kernel

end Nzbd.Config
