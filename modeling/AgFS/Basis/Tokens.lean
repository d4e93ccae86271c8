import Mathlib.Data.List.TakeWhile
import Mathlib.Data.List.DropRight

/-! Input streams of characters, and the extraction of white-space separated words. -/
namespace Tokens

/-- `isspace` in the classic locale. -/
def isSpace (b : UInt8) : Bool := b == 0x20 || (0x09 ≤ b && b ≤ 0x0D)

/-- An input stream: what has not been read yet, and the state bits. -/
structure IStream where
  rest : List UInt8
  eof : Bool
  fail : Bool
  deriving DecidableEq

def IStream.opened (content : List UInt8) : IStream := ⟨content, false, false⟩

/-- A stream whose file could not be opened: only `failbit` is set. -/
def IStream.unopened : IStream := ⟨[], false, true⟩

def IStream.good (s : IStream) : Bool := !s.eof && !s.fail

/-- `stream >> word`. White space is skipped first. If the stream is not good, or has no
more than white space left, the extraction fails and the variable keeps its value. -/
def IStream.extract (s : IStream) (word : List UInt8) : IStream × List UInt8 :=
  if s.good then
    match s.rest.dropWhile isSpace with
    | [] => (⟨[], true, true⟩, word)
    | b :: bs =>
      let tail := bs.dropWhile fun b => !isSpace b
      (⟨tail, tail.isEmpty, false⟩, b :: bs.takeWhile fun b => !isSpace b)
  else (⟨s.rest, s.eof, true⟩, word)

/-! What extractions yield, by the words of the text. -/

private theorem not_of_dropWhile_eq {p : UInt8 → Bool} {text bs : List UInt8} {b : UInt8}
    (h : text.dropWhile p = b :: bs) : ¬ p b := by
  have hne : text.dropWhile p ≠ [] := by
    rw [h]
    simp
  have hb := List.head_dropWhile_not p hne
  simpa [h] using hb

/-- The words of a text: its longest pieces without white space. -/
def words (text : List UInt8) : List (List UInt8) := (text.splitOnP isSpace).filter (· ≠ [])

@[simp] theorem words_nil : words [] = [] := rfl

theorem words_length_le (text : List UInt8) : (words text).length ≤ text.length + 1 := by
  have hsplit : (text.splitOnP isSpace).length ≤ text.length + 1 := by
    induction text with
    | nil => exact le_rfl
    | cons b bs ih =>
      rw [List.splitOnP_cons_eq_if_modifyHead]
      split
      · simpa using ih
      · simp only [List.length_modifyHead, List.length_cons]
        omega
  exact (List.length_filter_le _ _).trans hsplit

theorem words_cons_space {b : UInt8} (h : isSpace b) (bs : List UInt8) :
    words (b :: bs) = words bs := by
  rw [words, List.splitOnP_cons_eq_if_modifyHead, if_pos h]
  rfl

theorem words_dropWhile (text : List UInt8) : words (text.dropWhile isSpace) = words text := by
  induction text with
  | nil => rfl
  | cons b bs ih =>
    by_cases h : isSpace b
    · rw [List.dropWhile_cons_of_pos h, words_cons_space h, ih]
    · rw [List.dropWhile_cons_of_neg h]

theorem words_cons {b : UInt8} (h : ¬ isSpace b) (bs : List UInt8) :
    words (b :: bs) = (b :: bs.takeWhile fun c => !isSpace c) ::
      words (bs.dropWhile fun c => !isSpace c) := by
  have hword : ∀ c ∈ b :: bs.takeWhile fun c => !isSpace c, isSpace c = false := by
    intro c hc
    rcases List.mem_cons.mp hc with rfl | hc
    · simpa using h
    · simpa using List.mem_takeWhile_imp hc
  have hsplit : b :: bs = (b :: bs.takeWhile fun c => !isSpace c) ++
      bs.dropWhile fun c => !isSpace c := by
    rw [List.cons_append, List.takeWhile_append_dropWhile]
  rcases htail : bs.dropWhile fun c => !isSpace c with _ | ⟨c, tail⟩
  · rw [htail, List.append_nil] at hsplit
    conv_lhs => rw [hsplit]
    rw [words, List.splitOnP_eq_singleton hword]
    rfl
  · have hc : isSpace c := by
      simpa using not_of_dropWhile_eq htail
    rw [htail] at hsplit
    conv_lhs => rw [hsplit]
    rw [words, List.splitOnP_append_cons_of_forall_mem hword c hc, words_cons_space hc]
    rfl

theorem words_append_space {s : UInt8} (h : isSpace s) (a b : List UInt8) :
    words (a ++ s :: b) = words a ++ words b := by
  rw [words, List.splitOnP_append_cons a b h, List.filter_append]
  rfl

theorem words_of_word {w : List UInt8} (hne : w ≠ []) (h : ∀ b ∈ w, isSpace b = false) : words w = [w] := by
  rw [words, List.splitOnP_eq_singleton h, List.filter_cons_of_pos (by simpa using hne)]
  rfl

theorem not_isSpace_of_mem_words {text w : List UInt8} (hw : w ∈ words text) {b : UInt8} (hb : b ∈ w) :
    isSpace b = false := by
  suffices hpieces : ∀ piece ∈ text.splitOnP isSpace, ∀ b ∈ piece, isSpace b = false from
    hpieces w (List.mem_filter.mp hw).1 b hb
  clear hw hb
  induction text with
  | nil => simp
  | cons c text ih =>
    rw [List.splitOnP_cons_eq_if_modifyHead]
    by_cases hc : isSpace c
    · rw [if_pos hc]
      exact List.forall_mem_cons.mpr ⟨by simp, ih⟩
    · rw [if_neg hc]
      obtain ⟨first, rest, hsplit⟩ := List.exists_cons_of_ne_nil (List.splitOnP_ne_nil isSpace text)
      rw [hsplit] at ih ⊢
      obtain ⟨hfirst, hrest⟩ := List.forall_mem_cons.mp ih
      refine List.forall_mem_cons.mpr ⟨List.forall_mem_cons.mpr ⟨by simpa using hc, hfirst⟩, hrest⟩

namespace IStream

theorem extract_word {s : IStream} (hs : s.good) {w : List UInt8} {ws : List (List UInt8)}
    (h : words s.rest = w :: ws) (word : List UInt8) :
    ∃ tail, s.extract word = (⟨tail, tail.isEmpty, false⟩, w) ∧ words tail = ws := by
  rw [extract, if_pos hs]
  rw [← words_dropWhile] at h
  rcases hrest : s.rest.dropWhile isSpace with _ | ⟨b, bs⟩
  · rw [hrest] at h
    cases h
  · have hb := not_of_dropWhile_eq hrest
    rw [hrest, words_cons hb] at h
    obtain ⟨rfl, rfl⟩ := List.cons.inj h
    exact ⟨_, rfl, rfl⟩

theorem extract_none {s : IStream} (h : s.good → words s.rest = []) (he : s.good = false → s.eof)
    (word : List UInt8) :
    ∃ s', s.extract word = (s', word) ∧ s'.eof ∧ s'.good = false := by
  by_cases hs : s.good
  · have hw := h hs
    rw [← words_dropWhile] at hw
    rw [extract, if_pos hs]
    rcases hrest : s.rest.dropWhile isSpace with _ | ⟨b, bs⟩
    · exact ⟨_, rfl, rfl, rfl⟩
    · have hb := not_of_dropWhile_eq hrest
      rw [hrest, words_cons hb] at hw
      cases hw
  · rw [extract, if_neg hs]
    exact ⟨_, rfl, he (by simpa using hs), by simp [good]⟩

end IStream
end Tokens
