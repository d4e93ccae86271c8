import Mathlib.Data.List.Basic

/-! Services: objects that are asked for one thing after the other, told by what may come of a request. -/
namespace Interaction

/-- From a state, a request may come to a result and leave another state. -/
structure Service (R : Type) (Res : R → Type) (σ : Type) where
  Comes : σ → (r : R) → Res r → σ → Prop

/-- A request, with its result if it has come to one. -/
structure Asked {R : Type} (Res : R → Type) where
  request : R
  result : Option (Res request)

namespace Service
variable {R σ ρ : Type} {Res : R → Type}

/-- The results are those of one request after the other; the last may still have to come. -/
inductive Serial (S : Service R Res σ) : σ → List (Asked Res) → Prop
  | nil (s : σ) : Serial S s []
  | pending (s : σ) (r : R) : Serial S s [⟨r, none⟩]
  | cons {s t : σ} {r : R} {res : Res r} {calls : List (Asked Res)} (comes : S.Comes s r res t)
      (rest : Serial S t calls) : Serial S s (⟨r, some res⟩ :: calls)

variable {S : Service R Res σ} {s : σ} {calls : List (Asked Res)}

/-- What comes of requests of the kind `P` is, seen through `f`, what comes of them in another service. -/
theorem Serial.refine {T : Service R Res ρ} {f : σ → ρ} {P : R → Prop} (h : S.Serial s calls)
    (hcomes : ∀ {s r res t}, P r → S.Comes s r res t → T.Comes (f s) r res (f t))
    (hcalls : ∀ call ∈ calls, P call.request) : T.Serial (f s) calls := by
  induction h with
  | nil s => exact .nil (f s)
  | pending s r => exact .pending (f s) r
  | cons comes rest ih =>
    obtain ⟨hcall, hcalls⟩ := List.forall_mem_cons.mp hcalls
    exact .cons (hcomes hcall comes) (ih hcalls)

/-- Requests that leave the state as it is may be left out. -/
theorem Serial.erase {keep : R → Bool} (h : S.Serial s calls)
    (hcomes : ∀ {s r res t}, keep r = false → S.Comes s r res t → t = s) :
    S.Serial s (calls.filter fun call => keep call.request) := by
  induction h with
  | nil s => exact .nil s
  | pending s r =>
    rw [List.filter_cons, List.filter_nil]
    split
    · exact .pending s r
    · exact .nil s
  | @cons s t r res calls comes rest ih =>
    rw [List.filter_cons]
    split
    · exact .cons comes ih
    · next hdrop =>
      obtain rfl : t = s := hcomes (by simpa using hdrop) comes
      exact ih

/-- The requests before some of the last ones. -/
theorem Serial.left {rest : List (Asked Res)} (h : S.Serial s (calls ++ rest)) : S.Serial s calls := by
  induction calls generalizing s with
  | nil => exact .nil s
  | cons call calls ih =>
    generalize hall : call :: calls ++ rest = all at h
    cases h with
    | nil => cases hall
    | pending s r =>
      obtain ⟨rfl, hnil⟩ := List.cons.inj hall
      obtain ⟨rfl, -⟩ := List.append_eq_nil_iff.mp hnil
      exact .pending s r
    | cons comes hrest =>
      obtain ⟨rfl, rfl⟩ := List.cons.inj hall
      exact .cons comes (ih hrest)

/-- What requests of the kind `P` preserve still holds when they have come to their results. -/
theorem Serial.keeps {I : σ → Prop} {P : R → Prop} {before after : List (Asked Res)} {r : R} {res : Res r}
    (h : S.Serial s (before ++ ⟨r, some res⟩ :: after))
    (hcomes : ∀ {s r res t}, P r → I s → S.Comes s r res t → I t) (hs : I s)
    (hbefore : ∀ call ∈ before, P call.request) :
    ∃ t u, I t ∧ S.Comes t r res u ∧ S.Serial u after := by
  induction before generalizing s with
  | nil =>
    cases h with
    | cons comes rest => exact ⟨s, _, hs, comes, rest⟩
  | cons call before ih =>
    obtain ⟨hcall, htail⟩ := List.forall_mem_cons.mp hbefore
    generalize hcalls : call :: before ++ ⟨r, some res⟩ :: after = calls at h
    cases h with
    | nil => cases hcalls
    | pending =>
      obtain ⟨-, hnil⟩ := List.cons.inj hcalls
      exact absurd hnil (by simp)
    | cons comes rest =>
      obtain ⟨rfl, rfl⟩ := List.cons.inj hcalls
      exact ih rest (hcomes hcall hs comes) htail

/-- Where two callers have both got a result for a request, the results are alike. -/
inductive Agree (alike : (r : R) → Res r → Res r → Prop) : Asked Res → Asked Res → Prop
  | left (r : R) (a : Option (Res r)) : Agree alike ⟨r, none⟩ ⟨r, a⟩
  | right (r : R) (a : Option (Res r)) : Agree alike ⟨r, a⟩ ⟨r, none⟩
  | both {r : R} {res res' : Res r} (h : alike r res res') : Agree alike ⟨r, some res⟩ ⟨r, some res'⟩

/-- Two services that give alike results from related states do so in every run over the same requests. -/
theorem Serial.agree {T : Service R Res ρ} {rel : σ → ρ → Prop} {alike : (r : R) → Res r → Res r → Prop}
    {s' : ρ} {calls' : List (Asked Res)} (h : S.Serial s calls) (h' : T.Serial s' calls') (hs : rel s s')
    (hcomes : ∀ {s s' r res res' t t'}, rel s s' → S.Comes s r res t → T.Comes s' r res' t' →
      alike r res res' ∧ rel t t')
    (hcalls : calls.map Asked.request = calls'.map Asked.request) : List.Forall₂ (Agree alike) calls calls' := by
  induction h generalizing s' calls' with
  | nil s =>
    obtain rfl := List.map_eq_nil_iff.mp hcalls.symm
    exact .nil
  | pending s r =>
    obtain ⟨⟨_, a⟩, rfl, rfl⟩ := List.map_eq_singleton_iff.mp hcalls.symm
    exact .cons (.left _ a) .nil
  | @cons s t r res calls comes rest ih =>
    cases h' with
    | nil => cases hcalls
    | pending s' r' =>
      obtain ⟨rfl, hnil⟩ := List.cons.inj hcalls
      obtain rfl := List.map_eq_nil_iff.mp hnil
      exact .cons (.right r _) .nil
    | cons comes' rest' =>
      obtain ⟨rfl, htail⟩ := List.cons.inj hcalls
      obtain ⟨halike, hrel⟩ := hcomes hs comes comes'
      exact .cons (.both halike) (ih rest' hrel htail)

end Service
end Interaction
