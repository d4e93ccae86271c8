import AgFS.Basis.Search
import AgFS.Model.Disambiguater

/-! Names that say which server a file is on, read back by `Disambiguater::ambiguate`. -/
namespace AgFS
open Interaction Search

theorem find_eq_some_iff {pattern : Str} (hp : pattern ≠ []) {s : Str} {n : Nat} :
    find pattern s = some n ↔ First pattern s n := by
  induction s generalizing n with
  | nil =>
    simp only [find, if_neg hp, reduceCtorEq, false_iff]
    intro h
    exact absurd (h.1.le_length hp) (by simpa using fun _ => hp)
  | cons b s ih =>
    by_cases hhere : pattern <+: b :: s
    · have hzero : First pattern (b :: s) 0 := ⟨hhere, nofun⟩
      rw [find, if_pos hhere, Option.some_inj]
      exact ⟨fun h => h ▸ hzero, fun h => hzero.unique h⟩
    · rw [find, if_neg hhere, Option.map_eq_some_iff]
      constructor
      · rintro ⟨k, hk, rfl⟩
        exact (first_cons_succ hhere).mpr (ih.mp hk)
      · intro h
        cases n with
        | zero => exact absurd h.1 hhere
        | succ k => exact ⟨k, ih.mpr ((first_cons_succ hhere).mp h), rfl⟩

private theorem find_eq_none_iff {pattern : Str} (hp : pattern ≠ []) {s : Str} :
    find pattern s = none ↔ ¬ pattern <:+: s := by
  rw [infix_iff_first, Option.eq_none_iff_forall_ne_some, not_exists]
  exact forall_congr' fun n => not_congr (find_eq_some_iff hp)

namespace Disambiguater

private theorem begin_unbordered : Unbordered BEGIN_BRACE := unbordered_pair (by decide)

private theorem end_unbordered : Unbordered END_BRACE := unbordered_pair (by decide)

/-- A path with a server's name in it, and the server and the path it is read as. -/
def ReadsAs (path : Str) (r : Str × Str) : Prop :=
  ∃ pre post, path = tagged pre r.1 ++ post ∧ r.2 = pre ++ post

/-- A server's name in a path, with no `{:` before it and no `:}` within. -/
structure Tags (path pre server post : Str) : Prop where
  path_eq : path = tagged pre server ++ post
  before : ¬ BEGIN_BRACE <:+: pre
  within : ¬ END_BRACE <:+: server

/-- The grammar of `ambiguate`: a path is left as it is or read as naming a server, and it
is read so whenever it names one. -/
structure Parses (path : Str) : Prop where
  sound : ambiguate path = ([], path) ∨ ReadsAs path (ambiguate path)
  complete : ∀ pre server post, Tags path pre server post →
    (ambiguate path).1 = server ∧ ReadsAs path (ambiguate path)
  unique : ∀ pre server post pre' server' post', Tags path pre server post →
    Tags path pre' server' post' → pre = pre' ∧ server = server'

/-- Where both marks occur, `:}` comes first after the first `{:`, or the path ends in `:}{:`
and these are its first marks. -/
def InOrder (path : Str) : Prop :=
  ∀ b e, First BEGIN_BRACE path b → First END_BRACE path e →
    b + 2 ≤ e ∨ b = e + 2 ∧ b + 2 = path.length

section Marks
variable {path pre server post : Str} {b e : Nat}

private theorem tagged_append (pre server post : Str) :
    tagged pre server ++ post = pre ++ BEGIN_BRACE ++ (server ++ END_BRACE ++ post) := by
  simp [tagged]

private theorem length_tagged_append (pre server post : Str) :
    (tagged pre server ++ post).length = pre.length + server.length + post.length + 4 := by
  simp only [tagged, List.length_append, BEGIN_BRACE, END_BRACE, List.length_cons, List.length_nil]
  omega

theorem Tags.first_begin (h : Tags path pre server post) : First BEGIN_BRACE path pre.length := by
  rw [h.path_eq, tagged_append]
  exact first_append begin_unbordered h.before

private theorem Tags.drop_begin (h : Tags path pre server post) :
    path.drop (pre.length + 2) = server ++ END_BRACE ++ post := by
  have hlen : pre.length + 2 = (pre ++ BEGIN_BRACE).length := by simp [BEGIN_BRACE]
  rw [h.path_eq, tagged_append, hlen, List.drop_left]

private theorem Tags.first_end (h : Tags path pre server post) :
    First END_BRACE (path.drop (pre.length + 2)) server.length := by
  rw [h.drop_begin]
  exact first_append end_unbordered h.within

private theorem Tags.unique {pre' server' post' : Str} (h : Tags path pre server post)
    (h' : Tags path pre' server' post') : pre = pre' ∧ server = server' := by
  have hlen := h.first_begin.unique h'.first_begin
  have hpre : pre = pre' := by
    have htake : path.take pre.length = pre := by
      rw [h.path_eq, tagged_append, List.append_assoc, List.take_left]
    have htake' : path.take pre'.length = pre' := by
      rw [h'.path_eq, tagged_append, List.append_assoc, List.take_left]
    rw [← htake, hlen, htake']
  refine ⟨hpre, ?_⟩
  have hend := h.first_end
  rw [hlen] at hend
  have hserver := hend.unique h'.first_end
  have hdrop := h.drop_begin
  rw [hlen, h'.drop_begin, List.append_assoc, List.append_assoc] at hdrop
  exact (List.append_inj_left hdrop hserver.symm).symm

theorem ambiguate_unmarked (h : ¬ BEGIN_BRACE <:+: path ∨ ¬ END_BRACE <:+: path) :
    ambiguate path = ([], path) := by
  rcases h with h | h
  · rw [ambiguate, (find_eq_none_iff (by decide)).mpr h]
  · rw [ambiguate, (find_eq_none_iff (by decide)).mpr h]
    cases find BEGIN_BRACE path <;> rfl

private theorem ambiguate_marked (hb : First BEGIN_BRACE path b) (he : First END_BRACE path e) :
    ambiguate path =
      (substr path (b + 2) (sizeSub e (b + 2)), path.take b ++ path.drop (e + 2)) := by
  rw [ambiguate, (find_eq_some_iff (by decide)).mpr hb, (find_eq_some_iff (by decide)).mpr he]
  rfl

/-- Where no `:}` comes before its own, a server's name is read back and taken out. -/
theorem Tags.ambiguate_eq (h : Tags path pre server post)
    (hfront : ¬ END_BRACE <:+: pre ++ (BEGIN_BRACE ++ server)) : ambiguate path = (server, pre ++ post) := by
  have hpath : path = pre ++ (BEGIN_BRACE ++ server) ++ END_BRACE ++ post := by
    rw [h.path_eq, tagged_append]
    simp only [List.append_assoc]
  have hlen : (pre ++ (BEGIN_BRACE ++ server)).length = pre.length + 2 + server.length := by
    simp only [BEGIN_BRACE, List.length_append, List.length_cons, List.length_nil]
    omega
  have hend : First END_BRACE path (pre.length + 2 + server.length) := by
    rw [hpath, ← hlen]
    exact first_append end_unbordered hfront
  have hserver : substr path (pre.length + 2) server.length = server := by
    rw [substr, h.drop_begin, List.append_assoc, List.take_left]
  have hrest : path.drop (pre.length + 2 + server.length + 2) = post := by
    have hpast : pre.length + 2 + server.length + 2 =
        (pre ++ (BEGIN_BRACE ++ server) ++ END_BRACE).length := by
      rw [List.length_append, hlen]
      rfl
    rw [hpath, hpast, List.drop_left]
  have hfile : path.take pre.length = pre := by
    rw [h.path_eq, tagged_append, List.append_assoc, List.take_left]
  rw [ambiguate_marked h.first_begin hend, sizeSub, if_pos (Nat.le_add_right _ _),
    Nat.add_sub_cancel_left, hserver, hrest, hfile]

theorem reads_of_order (hb : First BEGIN_BRACE path b) (he : First END_BRACE path e)
    (h : b + 2 ≤ e) : ReadsAs path (ambiguate path) := by
  rw [ambiguate_marked hb he, sizeSub, if_pos h]
  refine ⟨path.take b, path.drop (e + 2), ?_, rfl⟩
  have hend : At END_BRACE (path.drop (b + 2)) (e - (b + 2)) := by
    rw [At, List.drop_drop, Nat.add_sub_cancel' h]
    exact he.1
  have hrest := hend.split
  rw [List.drop_drop] at hrest
  have hpast : b + 2 + (e - (b + 2) + END_BRACE.length) = e + 2 := by
    simp only [END_BRACE, List.length_cons, List.length_nil]
    omega
  rw [hpast] at hrest
  rw [tagged_append, substr, ← hrest]
  exact hb.1.split

/-- With the marks the other way round the path is read as all that follows `{:`, and what
lies between the marks is in both results or in none. -/
theorem ambiguate_crossed (hlen : path.length < 2 ^ 64) (hb : First BEGIN_BRACE path b)
    (he : First END_BRACE path e) (h : e < b + 2) :
    ambiguate path = (path.drop (b + 2), path.take b ++ path.drop (e + 2)) := by
  rw [ambiguate_marked hb he, sizeSub, if_neg (by omega), substr, List.take_of_length_le]
  rw [List.length_drop]
  omega

private theorem marks_crossed (hb : First BEGIN_BRACE path b) (he : First END_BRACE path e)
    (h : e < b + 2) : e + 2 ≤ b ∨ e = b + 1 ∧ b + 3 ≤ path.length := by
  have hfit := he.1.le_length (by decide)
  simp only [END_BRACE, List.length_cons, List.length_nil] at hfit
  -- the marks have no byte in common but the colon of `{:}`
  have hbrace := hb.1.getElem? (k := 0) (by decide)
  have hcolon := he.1.getElem? (k := 0) (by decide)
  have hclose := he.1.getElem? (k := 1) (by decide)
  have hsame : e ≠ b := by
    rintro rfl
    exact absurd (hbrace.symm.trans hcolon) (by decide)
  have hnext : e + 1 ≠ b := by
    rintro rfl
    exact absurd (hbrace.symm.trans hclose) (by decide)
  omega

end Marks

private theorem parses_of_order {path : Str} (hlen : path.length < 2 ^ 64) (h : InOrder path) :
    Parses path := by
  refine ⟨?_, ?_, fun _ _ _ _ _ _ => Tags.unique⟩
  · by_cases hmarks : BEGIN_BRACE <:+: path ∧ END_BRACE <:+: path
    · obtain ⟨⟨b, hb⟩, e, he⟩ := hmarks.imp infix_iff_first.mp infix_iff_first.mp
      rcases h b e hb he with horder | ⟨rfl, hlast⟩
      · exact .inr (reads_of_order hb he horder)
      · refine .inl ?_
        rw [ambiguate_crossed hlen hb he (by omega), hlast, List.drop_length,
          List.take_append_drop]
    · exact .inl (ambiguate_unmarked (not_and_or.mp hmarks))
  · intro pre server post htags
    have hb := htags.first_begin
    have hend : END_BRACE <:+: path :=
      ⟨pre ++ BEGIN_BRACE ++ server, post, by rw [htags.path_eq, tagged_append]; simp⟩
    obtain ⟨e, he⟩ := infix_iff_first.mp hend
    have hfull := length_tagged_append pre server post
    rw [← htags.path_eq] at hfull
    have horder : pre.length + 2 ≤ e := by
      rcases h _ e hb he with horder | ⟨-, hlast⟩
      · exact horder
      · omega
    refine ⟨?_, reads_of_order hb he horder⟩
    have hserver : e - (pre.length + 2) = server.length := (he.drop horder).unique htags.first_end
    rw [ambiguate_marked hb he, sizeSub, if_pos horder, substr, htags.drop_begin, hserver,
      List.append_assoc, List.take_left]

/-- With the marks out of order what is returned is too long to be read by the grammar. -/
theorem order_of_parses {path : Str} (hlen : path.length < 2 ^ 64) (h : Parses path) :
    InOrder path := by
  intro b e hb he
  by_cases horder : b + 2 ≤ e
  · exact .inl horder
  · have hcrossed := ambiguate_crossed hlen hb he (Nat.lt_of_not_le horder)
    have hbfit := hb.1.le_length (by decide)
    have hefit := he.1.le_length (by decide)
    simp only [BEGIN_BRACE, END_BRACE, List.length_cons, List.length_nil] at hbfit hefit
    have hfile : (ambiguate path).2.length = b + (path.length - (e + 2)) := by
      rw [hcrossed, List.length_append, List.length_take, List.length_drop]
      omega
    rcases h.sound with hplain | ⟨pre, post, hpath, hread⟩
    · refine .inr ?_
      have hserver : path.drop (b + 2) = [] :=
        (congrArg Prod.fst hcrossed).symm.trans (congrArg Prod.fst hplain)
      have hlast := List.drop_eq_nil_iff.mp hserver
      rw [hplain] at hfile
      have hfile : path.length = b + (path.length - (e + 2)) := hfile
      have hdisjoint := marks_crossed hb he (Nat.lt_of_not_le horder)
      omega
    · have hfull := congrArg List.length hpath
      rw [length_tagged_append] at hfull
      have hserver : (ambiguate path).1.length = path.length - (b + 2) := by
        rw [hcrossed, List.length_drop]
      rw [hread, List.length_append] at hfile
      omega

/-- `ambiguate` reads a path as its grammar says exactly when `:}` does not come before the
end of `{:`, but for a path that ends in `:}{:`. -/
theorem parses_iff {path : Str} (hlen : path.length < 2 ^ 64) : Parses path ↔ InOrder path :=
  ⟨order_of_parses hlen, parses_of_order hlen⟩

/-- `:}{:s:}` -/
def strayMark : Str := END_BRACE ++ tagged [] [0x73]

theorem parses_iff_strayMark : strayMark.length < 2 ^ 64 ∧ (Parses strayMark ↔ InOrder strayMark) :=
  ⟨by decide, parses_iff (by decide)⟩

/-- The server of `:}{:s:}` is read as `s:}`. -/
theorem not_parses_strayMark : strayMark.length < 2 ^ 64 ∧ ¬ Parses strayMark := by
  refine ⟨by decide, fun h => ?_⟩
  have htags : Tags strayMark END_BRACE [0x73] [] := ⟨by decide, by decide, by decide⟩
  exact absurd (h.complete _ _ _ htags).1 (by decide)

end Disambiguater
end AgFS
