import Mathlib.Algebra.Group.Nat.Defs
import Mathlib.Data.List.Basic

/-!
# Scanners

A scanner walks over the bytes of a text by a position and may stop: because the text is
malformed, because it looked outside of the text or a number did not fit, or because the loop of
the model was given too few steps.  `ScansAt` says all there is to say of a scanner at one
position: which texts it reads, that it reads no others, and that a malformed text is the only
reason to stop.  It is put together from the parts of a scanner (`bind`, `loop`).
-/

namespace Scanner

inductive Stop
  | malformed (message : String)
  | panic
  | unfinished

end Scanner

/-- The state is the position. -/
abbrev Scanner := StateT Nat (Except Scanner.Stop)

namespace Scanner

variable {α β σ : Type}

def fail (message : String) : Scanner α := fun _ => .error (.malformed message)

/-- The byte at the position. -/
def peek (bytes : List UInt8) (truncated : String) : Scanner UInt8 := fun position =>
  match bytes[position]? with
  | some b => .ok (b, position)
  | none => .error (.malformed truncated)

/-- One more has to fit. -/
def advance : Scanner Unit := fun position =>
  if position + 1 < 2 ^ 64 then .ok ((), position + 1) else .error .panic

/-- As long as the byte is not the one that ends it. -/
def whileNot (next : Scanner UInt8) (last : UInt8) (body : σ → Scanner σ) : Nat → σ → Scanner σ
  | 0, _ => fun _ => .error .unfinished
  | fuel + 1, s => do
    if (← next) = last then pure s
    else do
      let s ← body s
      whileNot next last body fuel s

theorem bind_ok {f : Scanner α} {g : α → Scanner β} {p q : Nat} {a : α} (h : f p = .ok (a, q)) :
    (f >>= g) p = g a q := by
  show StateT.bind f g p = g a q
  rw [StateT.bind, h]
  rfl

theorem bind_error {f : Scanner α} {g : α → Scanner β} {p : Nat} {stop : Stop} (h : f p = .error stop) :
    (f >>= g) p = .error stop := by
  show StateT.bind f g p = .error stop
  rw [StateT.bind, h]
  rfl

/-! ### What a scanner reads -/

/-- `P a t rest` for the texts that are read as `a` when `rest` comes behind them. -/
structure ScansAt (bytes : List UInt8) (p : Nat) (f : Scanner α)
    (P : α → List UInt8 → List UInt8 → Prop) : Prop where
  complete : ∀ a t rest, P a t rest → bytes.drop p = t ++ rest → f p = .ok (a, p + t.length)
  sound : ∀ a p', f p = .ok (a, p') → ∃ t rest, P a t rest ∧ bytes.drop p = t ++ rest ∧ p' = p + t.length
  safe : ∀ stop, f p = .error stop → ∃ message, stop = .malformed message

namespace ScansAt

variable {bytes : List UInt8} {p : Nat} {P P' : α → List UInt8 → List UInt8 → Prop}

theorem congr {f : Scanner α} (h : ScansAt bytes p f P)
    (hP : ∀ a t rest, bytes.drop p = t ++ rest → (P a t rest ↔ P' a t rest)) : ScansAt bytes p f P' where
  complete a t rest ha hdrop := h.complete a t rest ((hP a t rest hdrop).mpr ha) hdrop
  sound a p' hok := by
    obtain ⟨t, rest, ha, hdrop, hp⟩ := h.sound a p' hok
    exact ⟨t, rest, (hP a t rest hdrop).mp ha, hdrop, hp⟩
  safe := h.safe

theorem pure (a : α) : ScansAt bytes p (pure a) fun b t _ => t = [] ∧ b = a where
  complete b t rest h _ := by
    rw [h.1, h.2]
    rfl
  sound b p' h := by
    cases h
    exact ⟨[], bytes.drop p, ⟨rfl, rfl⟩, rfl, rfl⟩
  safe stop h := by cases h

theorem fail (message : String) : ScansAt bytes p (fail message : Scanner α) fun _ _ _ => False where
  complete _ _ _ h := h.elim
  sound b p' h := by cases h
  safe stop h := by
    cases h
    exact ⟨message, rfl⟩

theorem peek (truncated : String) :
    ScansAt bytes p (peek bytes truncated) fun b t rest => t = [] ∧ rest.head? = some b where
  complete b t rest h hdrop := by
    obtain ⟨rfl, hhead⟩ := h
    have hb : bytes[p]? = some b := by rw [← List.head?_drop, hdrop, List.nil_append, hhead]
    unfold Scanner.peek
    rw [hb]
    rfl
  sound b p' h := by
    unfold Scanner.peek at h
    cases hb : bytes[p]? with
    | none =>
      rw [hb] at h
      cases h
    | some c =>
      rw [hb] at h
      cases h
      exact ⟨[], bytes.drop p, ⟨rfl, by rw [List.head?_drop, hb]⟩, rfl, rfl⟩
  safe stop h := by
    unfold Scanner.peek at h
    cases hb : bytes[p]? with
    | none =>
      rw [hb] at h
      cases h
      exact ⟨truncated, rfl⟩
    | some c =>
      rw [hb] at h
      cases h

end ScansAt

theorem lt_length_of_drop {bytes t : List UInt8} {p : Nat} {b : UInt8} (h : bytes.drop p = b :: t) :
    p < bytes.length := by
  by_contra hge
  rw [List.drop_eq_nil_of_le (Nat.le_of_not_lt hge)] at h
  cases h

theorem drop_add {bytes t rest : List UInt8} {p : Nat} (h : bytes.drop p = t ++ rest) :
    bytes.drop (p + t.length) = rest := by
  rw [← List.drop_drop, h, List.drop_left]

theorem add_length_le {bytes t rest : List UInt8} {p : Nat} (h : bytes.drop p = t ++ rest)
    (hp : p ≤ bytes.length) : p + t.length ≤ bytes.length := by
  have hlength := congrArg List.length h
  rw [List.length_drop, List.length_append] at hlength
  omega

namespace ScansAt

variable {bytes : List UInt8} {p : Nat}

theorem advance {b : UInt8} {r : List UInt8} (hlen : bytes.length < 2 ^ 64) (hb : bytes.drop p = b :: r) :
    ScansAt bytes p advance fun _ t _ => t = [b] := by
  have hp := lt_length_of_drop hb
  have hok : Scanner.advance p = .ok ((), p + 1) := if_pos (by omega)
  refine ⟨fun _ t _ ht _ => ?_, fun _ p' h => ?_, fun stop h => ?_⟩
  · rw [ht]
    exact hok
  · rw [hok] at h
    cases h
    exact ⟨[b], r, rfl, hb, rfl⟩
  · rw [hok] at h
    cases h

/-- **One scanner after the other.** -/
theorem bind {f : Scanner α} {g : α → Scanner β} {P : α → List UInt8 → List UInt8 → Prop}
    {Q : α → List UInt8 → β → List UInt8 → List UInt8 → Prop} (hf : ScansAt bytes p f P)
    (hg : ∀ a t rest, P a t rest → bytes.drop p = t ++ rest → ScansAt bytes (p + t.length) (g a) (Q a t)) :
    ScansAt bytes p (f >>= g) fun b u rest =>
      ∃ a t t', u = t ++ t' ∧ P a t (t' ++ rest) ∧ Q a t b t' rest where
  complete b u rest h hdrop := by
    obtain ⟨a, t, t', rfl, ha, hb⟩ := h
    rw [List.append_assoc] at hdrop
    have hfirst := hf.complete a t (t' ++ rest) ha hdrop
    have hsecond := (hg a t _ ha hdrop).complete b t' rest hb (drop_add hdrop)
    rw [List.length_append, ← Nat.add_assoc, bind_ok hfirst]
    exact hsecond
  sound b p' h := by
    cases hfirst : f p with
    | error stop =>
      rw [bind_error hfirst] at h
      cases h
    | ok x =>
      obtain ⟨a, q⟩ := x
      obtain ⟨t, r, ha, hdrop, rfl⟩ := hf.sound a q hfirst
      rw [bind_ok hfirst] at h
      obtain ⟨t', rest, hb, hdrop', rfl⟩ := (hg a t r ha hdrop).sound b p' h
      rw [drop_add hdrop] at hdrop'
      subst hdrop'
      refine ⟨t ++ t', rest, ⟨a, t, t', rfl, ha, hb⟩, ?_, ?_⟩
      · rw [hdrop, List.append_assoc]
      · rw [List.length_append, Nat.add_assoc]
  safe stop h := by
    cases hfirst : f p with
    | error stop' =>
      rw [bind_error hfirst] at h
      cases h
      exact hf.safe stop hfirst
    | ok x =>
      obtain ⟨a, q⟩ := x
      obtain ⟨t, r, ha, hdrop, rfl⟩ := hf.sound a q hfirst
      rw [bind_ok hfirst] at h
      exact (hg a t r ha hdrop).safe stop h

variable {Q : β → List UInt8 → List UInt8 → Prop}

theorem get_bind {g : Nat → Scanner β}
    (h : ScansAt bytes p (g p) Q) : ScansAt bytes p (get >>= g) Q := { h with }

theorem peek_bind {truncated : String} {g : UInt8 → Scanner β}
    (hg : ∀ b r, bytes.drop p = b :: r → ScansAt bytes p (g b) Q) (hend : ∀ c, ¬Q c [] []) :
    ScansAt bytes p (Scanner.peek bytes truncated >>= g) Q := by
  have hsee : ∀ b t rest, t = [] ∧ rest.head? = some b → bytes.drop p = t ++ rest →
      ScansAt bytes (p + t.length) (g b) Q := by
    rintro b t rest ⟨rfl, hhead⟩ hdrop
    obtain ⟨r, hr⟩ := List.head?_eq_some_iff.mp hhead
    exact hg b r (hdrop.trans hr)
  refine ((peek truncated).bind (Q := fun _ _ => Q) hsee).congr fun c u rest hdrop => ⟨?_, fun hc => ?_⟩
  · rintro ⟨b, t, t', rfl, ⟨rfl, -⟩, hc⟩
    exact hc
  · cases hb : (u ++ rest).head? with
    | none =>
      rw [List.head?_eq_none_iff, List.append_eq_nil_iff] at hb
      obtain ⟨rfl, rfl⟩ := hb
      exact absurd hc (hend c)
    | some b => exact ⟨b, [], u, rfl, ⟨rfl, hb⟩, hc⟩

theorem advance_bind {b : UInt8} {r : List UInt8} {g : Unit → Scanner β}
    (hlen : bytes.length < 2 ^ 64) (hb : bytes.drop p = b :: r)
    (hg : ScansAt bytes (p + 1) (g ()) fun c t rest => Q c (b :: t) rest) (hne : ∀ c rest, ¬Q c [] rest) :
    ScansAt bytes p (Scanner.advance >>= g) Q := by
  have hrest : ∀ (a : Unit) t rest, t = [b] → bytes.drop p = t ++ rest →
      ScansAt bytes (p + t.length) (g a) fun c t rest => Q c (b :: t) rest := by
    rintro ⟨⟩ t rest rfl -
    exact hg
  refine ((advance hlen hb).bind (Q := fun _ _ c t rest => Q c (b :: t) rest) hrest).congr
    fun c u rest hdrop => ⟨?_, fun hc => ?_⟩
  · rintro ⟨-, t, t', rfl, rfl, hc⟩
    exact hc
  · cases u with
    | nil => exact absurd hc (hne c rest)
    | cons b' t =>
      rw [hb, List.cons_append, List.cons.injEq] at hdrop
      obtain ⟨rfl, -⟩ := hdrop
      exact ⟨(), [b], t, rfl, rfl, hc⟩

end ScansAt

/-! ### Loops -/

theorem peek_ok {bytes r : List UInt8} {truncated : String} {p : Nat} {b : UInt8} (hb : bytes.drop p = b :: r) :
    peek bytes truncated p = .ok (b, p) := by
  have hget : bytes[p]? = some b := by rw [← List.head?_drop, hb, List.head?_cons]
  unfold peek
  rw [hget]

section

variable {bytes r : List UInt8} {truncated : String} {last b : UInt8} {body : σ → Scanner σ} {p : Nat}

theorem whileNot_ok (hb : bytes.drop p = b :: r) (hne : b ≠ last) {s s' : σ} {q : Nat}
    (h : body s p = .ok (s', q)) (fuel : Nat) :
    whileNot (peek bytes truncated) last body (fuel + 1) s p =
      whileNot (peek bytes truncated) last body fuel s' q := by
  rw [whileNot, bind_ok (peek_ok hb), if_neg hne, bind_ok h]

theorem whileNot_error (hb : bytes.drop p = b :: r) (hne : b ≠ last) {s : σ} {stop : Stop}
    (h : body s p = .error stop) (fuel : Nat) :
    whileNot (peek bytes truncated) last body (fuel + 1) s p = .error stop := by
  rw [whileNot, bind_ok (peek_ok hb), if_neg hne, bind_error h]

end

/-- What the steps of a loop read, one after the other. -/
inductive Steps (Q : σ → σ → List UInt8 → Prop) : σ → σ → List UInt8 → Prop
  | nil (s : σ) : Steps Q s s []
  | cons {s s' s'' : σ} {t u : List UInt8} (h : Q s s' t) (hu : Steps Q s' s'' u) : Steps Q s s'' (t ++ u)

/-- **A loop** reads what its steps read, up to the byte that ends it. -/
theorem ScansAt.whileNot {bytes : List UInt8} {truncated : String} {last : UInt8} {body : σ → Scanner σ}
    {Q : σ → σ → List UInt8 → Prop}
    (hbody : ∀ s p b r, bytes.drop p = b :: r → b ≠ last → ScansAt bytes p (body s) fun s' t _ => Q s s' t)
    (hne : ∀ s s' t, Q s s' t → ∃ b r, t = b :: r ∧ b ≠ last) :
    ∀ fuel s p, bytes.length < p + fuel → 0 < fuel →
      ScansAt bytes p (Scanner.whileNot (Scanner.peek bytes truncated) last body fuel s)
        fun s' t rest => Steps Q s s' t ∧ rest.head? = some last := by
  intro fuel
  induction fuel with
  | zero => exact fun s p _ h => absurd h (Nat.lt_irrefl 0)
  | succ fuel ih =>
    intro s p hfuel _
    refine ScansAt.peek_bind (fun b r hb => ?_) fun s' h => by cases h.2
    have hp := lt_length_of_drop hb
    split
    · next hlast =>
      subst hlast
      refine (ScansAt.pure s).congr fun s' t rest hdrop => ⟨?_, ?_⟩
      · rintro ⟨rfl, rfl⟩
        rw [hb, List.nil_append] at hdrop
        exact ⟨.nil s', by rw [← hdrop]; rfl⟩
      · rintro ⟨hsteps, -⟩
        cases hsteps with
        | nil => exact ⟨rfl, rfl⟩
        | cons h hu =>
          obtain ⟨c, t', rfl, hc⟩ := hne _ _ _ h
          rw [hb, List.cons_append, List.cons_append, List.cons.injEq] at hdrop
          exact absurd hdrop.1.symm hc
    · next hlast =>
      have hrest : ∀ s' t rest, Q s s' t → bytes.drop p = t ++ rest →
          ScansAt bytes (p + t.length) (Scanner.whileNot (Scanner.peek bytes truncated) last body fuel s')
            fun s'' u rest => Steps Q s' s'' u ∧ rest.head? = some last := by
        intro s' t rest h hdrop
        obtain ⟨c, t', rfl, -⟩ := hne _ _ _ h
        have hle := add_length_le hdrop (Nat.le_of_lt hp)
        rw [List.length_cons] at hle ⊢
        exact ih s' _ (by omega) (by omega)
      refine ((hbody s p b r hb hlast).bind
        (Q := fun s' _ s'' u rest => Steps Q s' s'' u ∧ rest.head? = some last) hrest).congr fun s'' u rest hdrop => ⟨?_, ?_⟩
      · rintro ⟨s', t, t', rfl, h, hsteps, hhead⟩
        exact ⟨.cons h hsteps, hhead⟩
      · rintro ⟨hsteps, hhead⟩
        cases hsteps with
        | nil =>
          rw [hb, List.nil_append] at hdrop
          rw [← hdrop, List.head?_cons, Option.some_inj] at hhead
          exact absurd hhead hlast
        | cons h hu => exact ⟨_, _, _, rfl, h, hu, hhead⟩

end Scanner
