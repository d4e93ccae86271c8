import AgFS.Interaction.Network
import AgFS.Interaction.Process

/-! Exchanges between two machines that leave nothing in flight: rounds in which the left
side sends, the right side answers and the left side takes the answer. -/
namespace Interaction

/-- `Talk a b u d a' b'`: in a sequence of rounds the sides go from `a` and `b` to `a'` and
`b'`, `u` going up and `d` coming down, all of it taken as it was sent. -/
inductive Talk {κ : Type} {A B : Machine κ} :
    A.State → B.State → Marked κ → Marked κ → A.State → B.State → Prop
  | refl (a : A.State) (b : B.State) : Talk a b [] [] a b
  | round {a a₁ a₂ a' : A.State} {b b₁ b' : B.State} {u u' d d' : Marked κ}
      (asks : A.Reaches a [] u a₁) (serves : B.Reaches b u d b₁) (hears : A.Reaches a₁ d [] a₂)
      (rest : Talk a₂ b₁ u' d' a' b') : Talk a b (u ++ u') (d ++ d') a' b'

namespace Talk
variable {κ : Type} {A B : Machine κ} {a a₁ a₂ a' : A.State} {b b₁ b' : B.State}
  {u u' d d' : Marked κ}

theorem trans (h : Talk a b u d a₁ b₁) (h' : Talk a₁ b₁ u' d' a' b') :
    Talk a b (u ++ u') (d ++ d') a' b' := by
  induction h with
  | refl => exact h'
  | round asks serves hears _ ih =>
    rw [List.append_assoc, List.append_assoc]
    exact .round asks serves hears (ih h')

theorem single (asks : A.Reaches a [] u a₁) (serves : B.Reaches b u d b')
    (hears : A.Reaches a₁ d [] a') : Talk a b u d a' b' := by
  simpa using Talk.round asks serves hears (.refl a' b')

/-- An exchange is one interleaving of the net, from empty streams to empty streams. -/
theorem leads (h : Talk a b u d a' b') : Net.Leads ⟨a, b, [], []⟩ ⟨a', b', [], []⟩ := by
  induction h with
  | refl => exact .refl
  | @round a a₁ _ _ b b₁ _ _ _ _ _ asks serves hears _ ih =>
    have h₁ := Net.leads_left asks b [] []
    have h₂ := Net.leads_right serves a₁ [] []
    have h₃ := Net.leads_left hears b₁ [] []
    simp only [unmark_nil, List.nil_append, List.append_nil] at h₁ h₂ h₃
    exact h₁.trans (h₂.trans (h₃.trans ih))

theorem map {C D : Machine κ} {f : A.State → C.State} {g : B.State → D.State}
    (hf : ∀ {q i o r}, A.Reaches q i o r → C.Reaches (f q) i o (f r))
    (hg : ∀ {q i o r}, B.Reaches q i o r → D.Reaches (g q) i o (g r))
    (h : Talk a b u d a' b') : Talk (f a) (g b) u d (f a') (g b') := by
  induction h with
  | refl a b => exact .refl (f a) (g b)
  | round asks serves hears _ ih => exact .round (hf asks) (hg serves) (hf hears) ih

end Talk

/-- A round in which the left side may leave a part of the answer where it is. -/
theorem Net.leads_round {κ : Type} {A B : Machine κ} {a a₁ a' : A.State} {b b' : B.State}
    {u d d' : Marked κ} (asks : A.Reaches a [] u a₁) (serves : B.Reaches b u (d ++ d') b')
    (hears : A.Reaches a₁ d [] a') : Net.Leads ⟨a, b, [], []⟩ ⟨a', b', [], unmark d'⟩ := by
  have h₁ := Net.leads_left asks b [] []
  have h₂ := Net.leads_right serves a₁ [] []
  have h₃ := Net.leads_left hears b' [] (unmark d')
  simp only [unmark_nil, unmark_append, List.nil_append, List.append_nil] at h₁ h₂ h₃
  exact h₁.trans (h₂.trans h₃)

/-- Every interleaving comes to rest in the same state, one of this kind, with nothing in
flight. -/
def Net.EndsIn {κ : Type} {A B : Machine κ} (n : Net A B) (P : A.State → B.State → Prop) : Prop :=
  ∃ k a b, P a b ∧ (Net.mk a b [] [] : Net A B).AtRest ∧
    ∀ j m, LeadsIn j n m → j ≤ k ∧ LeadsIn (k - j) m ⟨a, b, [], []⟩

/-- Where one interleaving comes to rest decides whether all of them end so. -/
theorem Net.endsIn_iff {κ : Type} {A B : Machine κ} {n m : Net A B} (h : Net.Leads n m) (hm : m.AtRest)
    {P : A.State → B.State → Prop} : n.EndsIn P ↔ P m.left m.right ∧ m.up = [] ∧ m.down = [] := by
  constructor
  · rintro ⟨k, a, b, hP, -, hall⟩
    obtain ⟨j, hj⟩ := h.exact
    rcases (hall j m hj).2.leads.cases_head with rfl | ⟨c, hc, -⟩
    · exact ⟨hP, rfl, rfl⟩
    · exact absurd hc hm.no_step
  · obtain ⟨a, b, up, down⟩ := m
    rintro ⟨hP, rfl, rfl⟩
    obtain ⟨k, hk⟩ := h.exact
    exact ⟨k, a, b, hP, hm, fun _ _ hj => hk.confluent hm hj⟩

theorem Talk.endsIn {κ : Type} {A B : Machine κ} {a a' : A.State} {b b' : B.State} {u d : Marked κ}
    {P : A.State → B.State → Prop} (h : Talk a b u d a' b')
    (hrest : (Net.mk a' b' [] [] : Net A B).AtRest) (hP : P a' b') :
    (Net.mk a b [] [] : Net A B).EndsIn P := by
  exact (Net.endsIn_iff h.leads hrest).mpr ⟨hP, rfl, rfl⟩

namespace Env
variable {κ : Type} {L M : Signature} {ν τ ν' τ' α β γ δ : Type}

/-- A program sends `u`, and having then taken `d` it goes on to `q`. -/
def Asks (e : Env κ L ν τ) (p : Prog (Sock κ L) α) (s : τ) (u d : Marked κ) (q : Prog (Sock κ L) α)
    (t : τ) : Prop :=
  ∀ v, ∃ c w, (e.machine α).Reaches (p, v, s) [] u c ∧ (e.machine α).Reaches c d [] (q, w, t)

namespace Asks
variable {e : Env κ L ν τ} {p q r : Prog (Sock κ L) α} {s s₁ t : τ} {o u d : Marked κ}

theorem of_hears (h : Does e p s d [] q t) : Asks e p s [] d q t := by
  intro v
  obtain ⟨w, hw⟩ := h v
  exact ⟨_, w, .refl _, hw⟩

theorem tell (h : Does e p s [] o r s₁) (h' : Asks e r s₁ u d q t) : Asks e p s (o ++ u) d q t := by
  intro v
  obtain ⟨v₁, hv⟩ := h v
  obtain ⟨c, w, hc, hw⟩ := h' v₁
  exact ⟨c, w, hv.trans hc, hw⟩

theorem bind (h : Asks e p s u d q t) (f : α → Prog (Sock κ L) β) :
    Asks e (p >>= f) s u d (q >>= f) t := by
  intro v
  obtain ⟨c, w, hc, hw⟩ := h v
  exact ⟨_, w, e.reaches_bind hc f, e.reaches_bind hw f⟩

theorem hears {d' : Marked κ} (h : Asks e p s u d q s₁) (h' : Does e q s₁ d' [] r t) :
    Asks e p s u (d ++ d') r t := by
  intro v
  obtain ⟨c, w, hc, hw⟩ := h v
  obtain ⟨x, hx⟩ := h' w
  exact ⟨c, x, hc, hw.trans hx⟩

/-- A write that may be short: what was not sent yet is sent later. -/
theorem send {recvs sends : κ → Prop} (he : e.Prompt recvs sends) {m : κ} {fd : Fd} (hf : 0 ≤ fd)
    {bs : Bytes} (hb : bs ≠ []) {f : WriteReply bs.length → Prog (Sock κ L) α}
    (h : ∀ j (hj : j ≤ bs.length), 0 < j → Asks e (f (.wrote j hj)) s (mark m (bs.drop j)) d q t) :
    Asks e (Sock.send m fd bs >>= f) s (mark m bs) d q t := by
  intro v
  obtain ⟨j, hj, hpos⟩ := he.send_some (v := v) (m := m) (List.length_pos_iff.mpr hb)
  have hmin : 0 < min j bs.length := by
    have := List.length_pos_iff.mpr hb
    omega
  have ht : e.turn (Sock.send m fd bs >>= f, v, s) [] =
      some ⟨(f (.wrote (min j bs.length) (Nat.min_le_right _ _)), (e.send v m bs.length).1, s), [],
        mark m (bs.take j)⟩ := by
    simp [turn, Sock.send, Int.not_lt.mpr hf, hj, say]
  obtain ⟨c, w, hc, hw⟩ := h (min j bs.length) (Nat.min_le_right _ _) hmin (e.send v m bs.length).1
  refine ⟨c, w, ?_, hw⟩
  have hsplit : mark m bs = mark m (bs.take j) ++ mark m (bs.drop (min j bs.length)) := by
    have htake : bs.take j = bs.take (min j bs.length) := by simp [List.take_eq_take_iff]
    rw [← mark_append, htake, List.take_append_drop]
  rw [hsplit]
  exact (reaches_single ht).trans hc

end Asks

/-- Two programs talk from one pair of system states to another, whatever the transfers
and the memory on both sides are like. -/
def Talks (e : Env κ L ν τ) (e' : Env κ M ν' τ') (p : Prog (Sock κ L) α) (q : Prog (Sock κ M) β)
    (s : τ) (s' : τ') (u d : Marked κ) (p' : Prog (Sock κ L) α) (q' : Prog (Sock κ M) β)
    (t : τ) (t' : τ') : Prop :=
  ∀ v v', ∃ w w', Talk (A := e.machine α) (B := e'.machine β)
    (p, v, s) (q, v', s') u d (p', w, t) (q', w', t')

namespace Talks
variable {e : Env κ L ν τ} {e' : Env κ M ν' τ'} {p p₁ p' : Prog (Sock κ L) α}
  {q q₁ q' : Prog (Sock κ M) β} {s s₁ t : τ} {s' s₁' t' : τ'} {u u' d d' : Marked κ}

theorem trans (h : Talks e e' p q s s' u d p₁ q₁ s₁ s₁')
    (h' : Talks e e' p₁ q₁ s₁ s₁' u' d' p' q' t t') :
    Talks e e' p q s s' (u ++ u') (d ++ d') p' q' t t' := by
  intro v v'
  obtain ⟨w, w', hw⟩ := h v v'
  obtain ⟨x, x', hx⟩ := h' w w'
  exact ⟨x, x', hw.trans hx⟩

theorem round (asks : Asks e p s u d p' t) (serves : Does e' q s' u d q' t') :
    Talks e e' p q s s' u d p' q' t t' := by
  intro v v'
  obtain ⟨c, w, hc, hw⟩ := asks v
  obtain ⟨w', hw'⟩ := serves v'
  exact ⟨w, w', .single hc hw' hw⟩

/-- A body that makes a call before it starts over. -/
def Productive {ι ω : Type} (body : ι → Prog (Sock κ L) (ι ⊕ ω)) : Prop :=
  ∀ i, resume body (body i) = body i

/-- A talk in which both sides come to the end of a pass is a talk of the two loops. -/
theorem loop {ι ω ι' ω' : Type} {body : ι → Prog (Sock κ L) (ι ⊕ ω)}
    {body' : ι' → Prog (Sock κ M) (ι' ⊕ ω')} (hb : Productive body) (hb' : Productive body')
    {i j : ι} {i' j' : ι'}
    (h : Talks e e' (body i) (body' i') s s' u d (.ret (.inl j)) (.ret (.inl j')) t t')
    (v : ν) (v' : ν') :
    ∃ w w', Talk (A := e.loop body) (B := e'.loop body') (body i, v, s) (body' i', v', s') u d
      (body j, w, t) (body' j', w', t') := by
  obtain ⟨w, w', hw⟩ := h v v'
  have hl := hw.map (C := e.loop body) (D := e'.loop body') (fun hr => e.reaches_loop hr)
    (fun hr => e'.reaches_loop hr)
  rw [hb i, hb' i'] at hl
  exact ⟨w, w', hl⟩

end Talks

def run (e : Env κ L ν τ) : Prog L α → τ → α × τ
  | .ret a, s => (a, s)
  | .call c k, s => e.run (k (e.sys s c).2) (e.sys s c).1

@[simp] theorem run_ret (e : Env κ L ν τ) (a : α) (s : τ) : e.run (.ret a) s = (a, s) := rfl

@[simp] theorem run_call (e : Env κ L ν τ) (c : L.Call) (k : L.Reply c → Prog L α) (s : τ) :
    e.run (.call c k) s = e.run (k (e.sys s c).2) (e.sys s c).1 := rfl

theorem run_bind (e : Env κ L ν τ) (p : Prog L α) (f : α → Prog L β) (s : τ) :
    e.run (p >>= f) s = e.run (f (e.run p s).1) (e.run p s).2 := by
  induction p generalizing s with
  | ret a => rfl
  | call c k ih => exact ih _ _

def trace (e : Env κ L ν τ) : Prog L α → τ → List (Event L)
  | .ret _, _ => []
  | .call c k, s => ⟨c, (e.sys s c).2⟩ :: e.trace (k (e.sys s c).2) (e.sys s c).1

theorem trace_bind (e : Env κ L ν τ) (p : Prog L α) (f : α → Prog L β) (s : τ) :
    e.trace (p >>= f) s = e.trace p s ++ e.trace (f (e.run p s).1) (e.run p s).2 := by
  induction p generalizing s with
  | ret a => rfl
  | call c k ih => exact congrArg (_ :: ·) (ih _ _)

end Env
end Interaction
