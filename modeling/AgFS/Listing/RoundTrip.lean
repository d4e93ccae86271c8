import AgFS.Listing.Found

/-! What `ambiguate` reads in a path that has been put together with a server's name. -/
namespace AgFS.Disambiguater
open Interaction Search

/-- `std::string::substr`, which throws for a start beyond the end of the string. -/
def substrThrowing (s : Str) (pos len : Nat) : Option Str :=
  if pos ≤ s.length then some (substr s pos len) else none

/-- The same up to the end of the string. -/
def suffixThrowing (s : Str) (pos : Nat) : Option Str :=
  if pos ≤ s.length then some (s.drop pos) else none

/-- `ambiguate`, with what `substr` throws. -/
def ambiguateThrowing (path : Str) : Option (Str × Str) :=
  match find BEGIN_BRACE path, find END_BRACE path with
  | some beginPosition, some endPosition => do
    let serverLoc := beginPosition + BEGIN_BRACE.length
    let server ← substrThrowing path serverLoc (sizeSub endPosition serverLoc)
    let filepath ← substrThrowing path 0 beginPosition
    let rest ← suffixThrowing path (endPosition + END_BRACE.length)
    return (server, filepath ++ rest)
  | _, _ => some ([], path)

/-- Nothing is thrown. -/
theorem ambiguateThrowing_eq (path : Str) : ambiguateThrowing path = some (ambiguate path) := by
  rw [ambiguateThrowing, ambiguate]
  cases hbegin : find BEGIN_BRACE path with
  | none => rfl
  | some b =>
    cases hend : find END_BRACE path with
    | none => rfl
    | some e =>
      have hb := ((find_eq_some_iff (by decide)).mp hbegin).1.le_length (by decide)
      have he := ((find_eq_some_iff (by decide)).mp hend).1.le_length (by decide)
      simp only [substrThrowing, suffixThrowing, if_pos hb, if_pos he, if_pos (Nat.zero_le _)]
      rfl

/-- A `:}` in front of the one that ends a server's name is in the path before it, in the name,
or made of the mark that begins the name and a brace. -/
theorem end_in_front {pre server : Str} (h : END_BRACE <:+: pre ++ (BEGIN_BRACE ++ server)) :
    END_BRACE <:+: pre ∨ END_BRACE <:+: server ∨ server.head? = some 0x7D := by
  have hsplit : pre ++ (BEGIN_BRACE ++ server) = pre ++ 0x7B :: (0x3A :: server) := rfl
  rw [hsplit] at h
  rcases pair_of_append (by decide) (by decide) h with hpre | hrest
  · exact .inl hpre
  · rcases List.infix_cons_iff.mp hrest with hhead | hserver
    · obtain ⟨rest, hrest⟩ := (List.cons_prefix_cons.mp hhead).2
      refine .inr (.inr ?_)
      rw [← hrest]
      rfl
    · exact .inr (.inl hserver)

/-- A path that was put together with a server's name is taken apart again, a path without one
of the marks is left as it is, and `substr` never starts beyond the end of a string. -/
theorem ambiguate_undoes (pre server : Str) (hbegin : ¬ BEGIN_BRACE <:+: pre)
    (hend : ¬ END_BRACE <:+: pre) (hserver : ¬ END_BRACE <:+: server) (hbrace : server.head? ≠ some 0x7D) :
    (∀ post, ambiguate (pre ++ BEGIN_BRACE ++ server ++ END_BRACE ++ post) = (server, pre ++ post)) ∧
      (∀ path, ¬ BEGIN_BRACE <:+: path ∨ ¬ END_BRACE <:+: path → ambiguate path = ([], path)) ∧
      ∀ path, ambiguateThrowing path = some (ambiguate path) := by
  refine ⟨fun post => ?_, fun path => ambiguate_unmarked, ambiguateThrowing_eq⟩
  have htags : Tags (tagged pre server ++ post) pre server post := ⟨rfl, hbegin, hserver⟩
  refine htags.ambiguate_eq fun hfront => ?_
  rcases end_in_front hfront with h | h | h
  · exact hend h
  · exact hserver h
  · exact hbrace h

/-- `a{` on the server `{::`. -/
theorem ambiguate_undoes_overlapping :
    ambiguate ([0x61, 0x7B] ++ BEGIN_BRACE ++ [0x7B, 0x3A, 0x3A] ++ END_BRACE ++ [0x62]) =
      ([0x7B, 0x3A, 0x3A], [0x61, 0x7B, 0x62]) :=
  (ambiguate_undoes [0x61, 0x7B] [0x7B, 0x3A, 0x3A] (by decide) (by decide) (by decide) (by decide)).1 [0x62]

end AgFS.Disambiguater
