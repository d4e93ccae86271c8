import AgFS.Interaction.Process

/-! Two machines that talk in rounds, each as far as it has come: what one side has taken, the
other has sent in the same exchange, wherever the two have stopped. -/
namespace Interaction

/-- A machine with states in which it has come to the end of what it does. -/
structure Party (κ : Type) extends Machine κ where
  final : State → Prop
  final_stuck {q : State} (h : final q) (inp : Bytes) : step q inp = none

section
variable {κ : Type} {A B : Party κ}

/-- What both sides have done from `a` and `b` on. What a side has taken beyond what the other
has sent so far is what the other sends later, when it has come to its end. -/
structure Joined (a : A.State) (b : B.State) (i o : Marked κ) (x : A.State) (i' o' : Marked κ)
    (y : B.State) : Prop where
  left : A.Reaches a i o x
  right : B.Reaches b i' o' y
  up : ∃ later, unmark i' <+: unmark o ++ later ∧ (later ≠ [] → A.final x)
  down : ∃ later, unmark i <+: unmark o' ++ later ∧ (later ≠ [] → B.final y)

/-- Each side has taken only what the other has sent, and when it has come to its end, which is
`a'` or `b'`, it has taken all of it. -/
structure Paired (i o : Marked κ) (x a' : A.State) (i' o' : Marked κ) (y b' : B.State) : Prop where
  up : i' <+: o
  down : i <+: o'
  served : B.final y → i' = o ∧ y = b'
  performed : A.final x → i = o' ∧ x = a'

/-- From `a` and `b` on, whatever the left side does while the right side comes to `y`, taking
`i'` and sending `o'`, they are paired. -/
def Tied (i' o' : Marked κ) (y : B.State) (a : A.State) (b : B.State) (a' : A.State) (b' : B.State) : Prop :=
  ∀ ⦃i o x⦄, Joined a b i o x i' o' y → Paired i o x a' i' o' y b'

theorem Party.reaches_final {q r : A.State} {i o : Marked κ} (h : A.Reaches q i o r) (hq : A.final q) :
    r = q ∧ i = [] ∧ o = [] :=
  h.of_stuck fun inp => A.final_stuck hq inp

/-- Marked streams of which one begins with the other agree where their bytes do. -/
theorem prefix_of_unmark {xs ys zs : Marked κ} (h : unmark xs <+: unmark ys) (hx : xs <+: zs) (hy : ys <+: zs) :
    xs <+: ys := by
  refine List.prefix_of_prefix_length_le hx hy ?_
  have hlen := h.length_le
  rwa [unmark_length, unmark_length] at hlen

theorem unmark_mono {xs ys : Marked κ} (h : xs <+: ys) : unmark xs <+: unmark ys := h.map Prod.snd

theorem eq_nil_of_append {xs ys : Marked κ} (h : unmark (xs ++ ys) <+: unmark xs) : ys = [] := by
  have hlen := h.length_le
  rw [unmark_length, unmark_length, List.length_append] at hlen
  exact List.length_eq_zero_iff.mp (by omega)

variable {a c a₁ a' x : A.State} {b b₁ b' y : B.State} {i o i' o' u d : Marked κ}

theorem not_final_asking (hask : A.Reaches a [] u c) (hhear : A.Reaches c d [] a₁) (hd : d ≠ [])
    (hx : A.Reaches a [] o x) : ¬ A.final x := by
  intro hfinal
  rcases hx.along hask (List.prefix_refl _) List.nil_prefix with ⟨j, v, -, rfl, hrest⟩ | ⟨j, v, hj, rfl, hrest⟩
  · obtain ⟨rfl, -, -⟩ := Party.reaches_final hrest hfinal
    exact hd (Party.reaches_final hhear hfinal).2.1
  · obtain ⟨-, rfl⟩ := List.nil_eq_append_iff.mp hj
    rcases hrest.along hhear List.nil_prefix (List.prefix_refl _) with ⟨k, w, hk, -, hlast⟩ | ⟨k, w, hk, -, -⟩
    · exact hd (hk.trans (Party.reaches_final hlast hfinal).2.1)
    · exact hd (List.nil_eq_append_iff.mp hk).1

theorem Joined.asking (h : Joined a b i o x i' o' y) (hask : A.Reaches a [] u c) (hhear : A.Reaches c d [] a₁)
    (hd : d ≠ []) :
    (i = [] ∧ o <+: u ∧ ¬ A.final x ∧ unmark i' <+: unmark o) ∨ ∃ o₂, o = u ++ o₂ ∧ A.Reaches c i o₂ x := by
  rcases h.left.along hask (List.prefix_refl _) List.nil_prefix with ⟨j, o₂, hj, rfl, hrest⟩ | ⟨j, o₂, rfl, rfl, hrest⟩
  · obtain ⟨rfl, rfl⟩ := List.nil_eq_append_iff.mp hj
    have hopen : ¬ A.final x := not_final_asking hask hhear hd h.left
    obtain ⟨later, hup, hlater⟩ := h.up
    have hnow : later = [] := by_contra fun hne => hopen (hlater hne)
    rw [hnow, List.append_nil] at hup
    exact .inl ⟨rfl, List.prefix_append _ _, hopen, hup⟩
  · exact .inr ⟨o₂, rfl, hrest⟩

theorem Tied.refl (ha : ∀ inp, A.step a inp = none) (hb : ∀ inp, B.step b inp = none) :
    Tied i' o' y a b a b := by
  intro i o x h
  obtain ⟨rfl, rfl, rfl⟩ := h.left.of_stuck ha
  obtain ⟨rfl, rfl, rfl⟩ := h.right.of_stuck hb
  exact ⟨List.prefix_refl _, List.prefix_refl _, fun _ => ⟨rfl, rfl⟩, fun _ => ⟨rfl, rfl⟩⟩

/-- While the left side waits, the right side can only be at its own end. -/
theorem Tied.waiting {v : Marked κ} (h : Tied [] v y a b a' b') (hy : B.Reaches b [] v y) (hfinal : B.final y) :
    y = b' := by
  have hjoined : Joined a b [] [] a [] v y :=
    ⟨.refl a, hy, ⟨[], List.nil_prefix, fun hne => absurd rfl hne⟩, ⟨[], List.nil_prefix, fun hne => absurd rfl hne⟩⟩
  exact ((h hjoined).served hfinal).2

theorem Paired.append {i₂ o₂ i₂' o₂' : Marked κ} (h : Paired i₂ o₂ x a' i₂' o₂' y b') (u d : Marked κ) :
    Paired (d ++ i₂) (u ++ o₂) x a' (u ++ i₂') (d ++ o₂') y b' where
  up := List.prefix_append_right_inj u |>.mpr h.up
  down := List.prefix_append_right_inj d |>.mpr h.down
  served hy := ⟨congrArg _ (h.served hy).1, (h.served hy).2⟩
  performed hx := ⟨congrArg _ (h.performed hx).1, (h.performed hx).2⟩

/-- The left side asks, the right side answers, and the left side takes the answer: if from then
on they are tied, they have been so from the beginning. -/
theorem Tied.round (hask : A.Reaches a [] u c) (hserve : B.Reaches b u d b₁) (hhear : A.Reaches c d [] a₁)
    (hd : d ≠ []) (hlast : ∀ {o x}, A.Reaches a₁ [] o x → A.final x → x = a')
    (h : ∀ j v, i' = u ++ j → o' = d ++ v → B.Reaches b₁ j v y → Tied j v y a₁ b₁ a' b') :
    Tied i' o' y a b a' b' := by
  intro i o x hjoin
  rcases hjoin.asking hask hhear hd with ⟨rfl, ho, hopen, hup⟩ | ⟨o₂, rfl, hrest⟩
  · -- the left side is still asking
    have hfit : unmark i' <+: unmark u := hup.trans (unmark_mono ho)
    have hi' : i' <+: o ∧ (B.final y → i' = o ∧ y = b') := by
      rcases hjoin.right.along hserve hfit (List.prefix_refl _) with ⟨j, v, hj, hv, hy⟩ | ⟨j, v, rfl, rfl, hy⟩
      · have hpre := prefix_of_unmark hup ⟨j, hj.symm⟩ ho
        refine ⟨hpre, fun hfinal => ?_⟩
        obtain ⟨rfl, rfl, rfl⟩ := Party.reaches_final hy hfinal
        rw [List.append_nil] at hj hv
        subst hj hv
        have hend := h [] [] (List.append_nil _).symm (List.append_nil _).symm (.refl _)
        exact ⟨hpre.eq_of_length_le ho.length_le, hend.waiting (.refl _) hfinal⟩
      · have hend := h j v rfl rfl hy
        obtain rfl := eq_nil_of_append hfit
        rw [List.append_nil] at hup ⊢
        have hpre := prefix_of_unmark hup (List.prefix_refl u) ho
        obtain rfl := hpre.eq_of_length_le ho.length_le
        exact ⟨hpre, fun hfinal => ⟨rfl, hend.waiting hy hfinal⟩⟩
    exact ⟨hi'.1, List.nil_prefix, hi'.2, fun hx => absurd hx hopen⟩
  · obtain ⟨later, hup, hlater⟩ := hjoin.up
    obtain ⟨later', hdown, hlater'⟩ := hjoin.down
    rw [unmark_append, List.append_assoc] at hup
    have served (j v : Marked κ) (hi' : i' = u ++ j) (ho' : o' = d ++ v) (hy : B.Reaches b₁ j v y) :
        Paired i (u ++ o₂) x a' i' o' y b' := by
      have hend := h j v hi' ho' hy
      subst hi' ho'
      rw [unmark_append, List.append_assoc] at hdown
      rw [unmark_append, List.prefix_append_right_inj] at hup
      have performed (k w : Marked κ) (hi : i = d ++ k) (ho : o₂ = w) (hx : A.Reaches a₁ k w x) :
          Paired i (u ++ o₂) x a' (u ++ j) (d ++ v) y b' := by
        subst hi ho
        rw [unmark_append, List.prefix_append_right_inj] at hdown
        exact (hend ⟨hx, hy, ⟨later, hup, hlater⟩, ⟨later', hdown, hlater'⟩⟩).append u d
      rcases hrest.along hhear hdown (List.prefix_append _ _) with ⟨k, w, hk, hw, hx⟩ | ⟨k, w, hk, hw, hx⟩
      · obtain ⟨rfl, rfl⟩ := List.nil_eq_append_iff.mp hw
        by_cases hfinal : A.final x
        · obtain ⟨rfl, rfl, -⟩ := Party.reaches_final hx hfinal
          exact performed [] [] (by rw [hk, List.append_nil, List.append_nil]) rfl (.refl _)
        · have hnow : later = [] := by_contra fun hne => hfinal (hlater hne)
          rw [hnow, List.append_nil, unmark_nil, List.prefix_nil] at hup
          obtain rfl : j = [] := List.map_eq_nil_iff.mp hup
          refine ⟨List.prefix_refl _, ?_, fun hy' => ⟨rfl, hend.waiting hy hy'⟩, fun hx' => absurd hx' hfinal⟩
          exact ⟨k ++ v, by rw [← List.append_assoc, ← hk]⟩
      · exact performed k w hk hw hx
    rcases hjoin.right.along hserve hup (List.prefix_append _ _) with ⟨j, v, hj, hv, hy⟩ | ⟨j, v, hj, hv, hy⟩
    · by_cases hfinal : B.final y
      · obtain ⟨rfl, rfl, rfl⟩ := Party.reaches_final hy hfinal
        exact served [] [] (by rw [hj, List.append_nil, List.append_nil])
          (by rw [hv, List.append_nil, List.append_nil]) (.refl _)
      · -- the right side is still answering
        have hnow : later' = [] := by_contra fun hne => hfinal (hlater' hne)
        have ho' : o' <+: d := ⟨v, hv.symm⟩
        rw [hnow, List.append_nil] at hdown
        have hi' : i' <+: u ++ o₂ := ⟨j ++ o₂, by rw [← List.append_assoc, ← hj]⟩
        rcases hrest.along hhear (hdown.trans (unmark_mono ho')) (List.prefix_refl _) with
          ⟨k, w, hk, hw, hx⟩ | ⟨k, w, rfl, rfl, hx⟩
        · have hi := prefix_of_unmark hdown ⟨k, hk.symm⟩ ho'
          refine ⟨hi', hi, fun hy' => absurd hy' hfinal, fun hx' => ?_⟩
          obtain ⟨rfl, rfl, rfl⟩ := Party.reaches_final hx hx'
          rw [List.append_nil] at hk
          subst hk
          exact ⟨hi.eq_of_length_le ho'.length_le, hlast (.refl _) hx'⟩
        · obtain rfl := eq_nil_of_append (hdown.trans (unmark_mono ho'))
          rw [List.append_nil] at hdown ⊢
          have hi := prefix_of_unmark hdown (List.prefix_refl d) ho'
          exact ⟨hi', hi, fun hy' => absurd hy' hfinal, fun hx' =>
            ⟨hi.eq_of_length_le ho'.length_le, hlast hx hx'⟩⟩
    · exact served j v hj hv hy

theorem Joined.agrees (h : Joined a b i o x i' o' y) (hask : A.Reaches a [] u c) (hhear : A.Reaches c d [] a₁)
    (hd : d ≠ []) : ∃ s, unmark i' <+: s ∧ unmark u <+: s := by
  rcases h.asking hask hhear hd with ⟨-, ho, -, hup⟩ | ⟨o₂, rfl, -⟩
  · exact ⟨unmark u, hup.trans (unmark_mono ho), List.prefix_refl _⟩
  · obtain ⟨later, hup, -⟩ := h.up
    rw [unmark_append, List.append_assoc] at hup
    exact ⟨_, hup, List.prefix_append _ _⟩

/-- When the right side has come to its end over input that agrees with what one way to an end takes, it has
taken that. -/
theorem Party.heard_all {s : Bytes} (hy : B.Reaches b i' o' y) (hserve : B.Reaches b u d b₁) (hi' : unmark i' <+: s)
    (hu : unmark u <+: s) (hfinal : B.final y) (hend : B.final b₁) : i' = u := by
  rcases hy.along hserve hi' hu with ⟨j, v, rfl, -, hrest⟩ | ⟨j, v, rfl, -, hrest⟩
  · obtain ⟨-, rfl, -⟩ := Party.reaches_final hrest hfinal
    exact (List.append_nil _).symm
  · obtain ⟨-, rfl, -⟩ := Party.reaches_final hrest hend
    exact List.append_nil _

/-- Over two rounds, too, a right side at its end has taken what agrees with what it is asked. -/
theorem Joined.agrees_twice {c₂ a₂ : A.State} {u₂ d₂ : Marked κ} (h : Joined a b i o x i' o' y)
    (hask : A.Reaches a [] u c) (hserve : B.Reaches b u d b₁) (hhear : A.Reaches c d [] a₁) (hd : d ≠ [])
    (hask₂ : A.Reaches a₁ [] u₂ c₂) (hhear₂ : A.Reaches c₂ d₂ [] a₂) (hd₂ : d₂ ≠ []) (hopen : ¬ B.final b₁)
    (hy : B.final y) : ∃ s, unmark i' <+: s ∧ unmark (u ++ u₂) <+: s := by
  rcases h.asking hask hhear hd with ⟨-, ho, -, hup⟩ | ⟨o₂, rfl, hrest⟩
  · exact ⟨unmark (u ++ u₂), (hup.trans (unmark_mono ho)).trans (unmark_mono (List.prefix_append _ _)),
      List.prefix_refl _⟩
  obtain ⟨later, hup, hlater⟩ := h.up
  obtain ⟨later', hdown, -⟩ := h.down
  rw [unmark_append, List.append_assoc] at hup
  rcases h.right.along hserve hup (List.prefix_append _ _) with ⟨j, v, -, -, hend⟩ | ⟨j, v, rfl, rfl, -⟩
  · obtain ⟨rfl, -, -⟩ := Party.reaches_final hend hy
    exact absurd hy hopen
  rw [unmark_append, List.append_assoc] at hdown
  have hway := hhear.trans hask₂
  rw [List.append_nil, List.nil_append] at hway
  rcases hrest.along hway hdown (List.prefix_append _ _) with ⟨k, w, -, rfl, hx⟩ | ⟨k, w, -, rfl, -⟩
  · by_cases hnow : later = []
    · rw [hnow, List.append_nil] at hup
      refine ⟨_, hup.trans ?_, List.prefix_refl _⟩
      rw [unmark_append, unmark_append, ← List.append_assoc]
      exact List.prefix_append _ _
    · -- the left side is at its end, and has not heard the second answer
      obtain ⟨rfl, -, -⟩ := Party.reaches_final hx (hlater hnow)
      exact absurd (Party.reaches_final hhear₂ (hlater hnow)).2.1 hd₂
  · refine ⟨_, hup, ?_⟩
    rw [unmark_append, unmark_append, List.append_assoc]
    exact (List.prefix_append_right_inj _).mpr (List.prefix_append _ _)

theorem Joined.silent (h : Joined a b i o x i' [] y) (hask : A.Reaches a [] u c) (hhear : A.Reaches c d [] a₁)
    (hd : d ≠ []) (hy : ¬ B.final y) (hi' : i' <+: u) : Paired i o x a' i' [] y b' := by
  rcases h.asking hask hhear hd with ⟨rfl, ho, hopen, hup⟩ | ⟨o₂, rfl, hrest⟩
  · exact ⟨prefix_of_unmark hup hi' ho, List.prefix_refl _, fun hfinal => absurd hfinal hy,
      fun hx => absurd hx hopen⟩
  · obtain ⟨later, hdown, hlater⟩ := h.down
    have hnow : later = [] := by_contra fun hne => hy (hlater hne)
    rw [hnow, unmark_nil, List.append_nil, List.prefix_nil] at hdown
    obtain rfl : i = [] := List.map_eq_nil_iff.mp hdown
    rcases hrest.along hhear List.nil_prefix (List.prefix_refl _) with ⟨k, w, hk, hw, hx⟩ | ⟨k, w, hk, -, -⟩
    · obtain ⟨rfl, rfl⟩ := List.nil_eq_append_iff.mp hw
      refine ⟨hi'.trans (List.prefix_append _ _), List.prefix_refl _, fun hfinal => absurd hfinal hy, fun hfinal => ?_⟩
      exact absurd (hk.trans (Party.reaches_final hx hfinal).2.1) hd
    · exact absurd (List.nil_eq_append_iff.mp hk).1 hd

/-- The left side asks for something over which the right side halts. -/
theorem Tied.halts (hask : A.Reaches a [] u c) (hhear : A.Reaches c d [] a₁) (hd : d ≠ []) {z : B.State}
    (hserve : B.Reaches b u [] z) (hz : ∀ inp, B.step z inp = none) (hopen : ¬ B.final z) :
    Tied i' o' y a b a' b' := by
  intro i o x hjoin
  obtain ⟨s, hs, hu⟩ := hjoin.agrees hask hhear hd
  rcases hjoin.right.along hserve hs hu with ⟨j, v, rfl, hv, hy⟩ | ⟨j, v, rfl, rfl, hy⟩
  · obtain ⟨rfl, -⟩ := List.nil_eq_append_iff.mp hv
    refine hjoin.silent hask hhear hd (fun hfinal => hopen ?_) (List.prefix_append _ _)
    obtain ⟨rfl, -, -⟩ := Party.reaches_final hy hfinal
    exact hfinal
  · obtain ⟨rfl, rfl, rfl⟩ := hy.of_stuck hz
    rw [List.append_nil] at hjoin ⊢
    exact hjoin.silent hask hhear hd hopen (List.prefix_refl _)

/-- In this case it does not come to its end. -/
theorem Joined.not_final_halted (h : Joined a b i o x i' o' y) (hask : A.Reaches a [] u c)
    (hhear : A.Reaches c d [] a₁) (hd : d ≠ []) {z : B.State} (hserve : B.Reaches b u [] z)
    (hz : ∀ inp, B.step z inp = none) (hopen : ¬ B.final z) : ¬ B.final y := by
  intro hy
  obtain ⟨s, hs, hu⟩ := h.agrees hask hhear hd
  rcases h.right.along hserve hs hu with ⟨j, v, -, -, hrest⟩ | ⟨j, v, -, -, hrest⟩
  · obtain ⟨rfl, -, -⟩ := Party.reaches_final hrest hy
    exact hopen hy
  · obtain ⟨rfl, -, -⟩ := hrest.of_stuck hz
    exact hopen hy

end

/-- A program as a party: it has come to its end when it has returned. -/
abbrev Env.party {κ : Type} {L : Signature} {ν τ : Type} (e : Env κ L ν τ) (α : Type) : Party κ where
  toMachine := e.machine α
  final c := ∃ a, c.1 = .ret a
  final_stuck := by
    rintro ⟨p, w⟩ ⟨a, rfl⟩ inp
    rfl

end Interaction
