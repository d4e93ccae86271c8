import AgFS.Basis.Tables
import AgFS.Model.Disambiguater

/-! What a `Disambiguater` holds: the reports of servers that it has been given. -/
namespace AgFS
open Interaction Tables

/-- A server says that it has a file or a directory of this name. -/
structure Report where
  server : Str
  name : Str
  stat : Stat

/-- Two reports of one file on one server. -/
def Clash (a b : Report) : Prop :=
  a.stat.isDir = false ∧ b.stat.isDir = false ∧ a.server = b.server ∧ a.name = b.name

instance (a b : Report) : Decidable (Clash a b) := inferInstanceAs (Decidable (_ ∧ _))

/-- The servers that report a file of this name, each with what it says about it. -/
def holders (reports : List Report) (name : Str) : List (Str × Stat) :=
  (reports.filter fun r => r.name = name ∧ r.stat.isDir = false).map fun r => (r.server, r.stat)

/-- What is said about directories of this name. -/
def directories (reports : List Report) (name : Str) : List Stat :=
  (reports.filter fun r => r.name = name ∧ r.stat.isDir = true).map Report.stat

/-- Reports are taken up to the first that comes from a server a second time. -/
def takeReports (reports : List Report) : List Report → List Report
  | [] => reports
  | r :: rest => if ∃ a ∈ reports, Clash a r then reports else takeReports (reports ++ [r]) rest

theorem zero_isDir : Stat.zero.isDir = false := by decide

section Reports
variable {reports : List Report} {r : Report} {name : Str}

private theorem holders_append (reports rest : List Report) (name : Str) :
    holders (reports ++ rest) name = holders reports name ++ holders rest name := by
  rw [holders, List.filter_append, List.map_append]
  rfl

private theorem directories_append (reports rest : List Report) (name : Str) :
    directories (reports ++ rest) name = directories reports name ++ directories rest name := by
  rw [directories, List.filter_append, List.map_append]
  rfl

private theorem holders_file (h : r.stat.isDir = false) :
    holders [r] name = if name = r.name then [(r.server, r.stat)] else [] := by
  by_cases hname : r.name = name
  · simp [holders, hname, h]
  · simp [holders, hname, Ne.symm hname]

private theorem holders_directory (h : r.stat.isDir = true) : holders [r] name = [] := by
  simp [holders, h]

private theorem directories_file (h : r.stat.isDir = false) : directories [r] name = [] := by
  simp [directories, h]

private theorem directories_directory (h : r.stat.isDir = true) :
    directories [r] name = if name = r.name then [r.stat] else [] := by
  by_cases hname : r.name = name
  · simp [directories, hname, h]
  · simp [directories, hname, Ne.symm hname]

theorem mem_holders {entry : Str × Stat} :
    entry ∈ holders reports name ↔ ⟨entry.1, name, entry.2⟩ ∈ reports ∧ entry.2.isDir = false := by
  rw [holders, List.mem_map]
  constructor
  · rintro ⟨r, hr, rfl⟩
    obtain ⟨hmem, hname⟩ := List.mem_filter.mp hr
    obtain ⟨rfl, hfile⟩ : r.name = name ∧ r.stat.isDir = false := by simpa using hname
    exact ⟨hmem, hfile⟩
  · rintro ⟨hmem, hfile⟩
    exact ⟨_, List.mem_filter.mpr ⟨hmem, by simpa using hfile⟩, rfl⟩

theorem mem_directories {stat : Stat} :
    stat ∈ directories reports name ↔
      stat.isDir = true ∧ ∃ server, ⟨server, name, stat⟩ ∈ reports := by
  rw [directories, List.mem_map]
  constructor
  · rintro ⟨r, hr, rfl⟩
    obtain ⟨hmem, hname⟩ := List.mem_filter.mp hr
    obtain ⟨rfl, hdir⟩ : r.name = name ∧ r.stat.isDir = true := by simpa using hname
    exact ⟨hdir, r.server, hmem⟩
  · rintro ⟨hdir, server, hmem⟩
    exact ⟨_, List.mem_filter.mpr ⟨hmem, by simpa using hdir⟩, rfl⟩

private theorem clash_iff (h : r.stat.isDir = false) :
    (∃ a ∈ reports, Clash a r) ↔ (holders reports r.name).any fun entry => entry.1 == r.server := by
  rw [List.any_eq_true]
  constructor
  · rintro ⟨a, ha, hfile, -, hserver, hname⟩
    exact ⟨(a.server, a.stat), mem_holders.mpr ⟨hname ▸ ha, hfile⟩, beq_iff_eq.mpr hserver⟩
  · rintro ⟨entry, hentry, hserver⟩
    obtain ⟨hmem, hfile⟩ := mem_holders.mp hentry
    exact ⟨_, hmem, hfile, h, beq_iff_eq.mp hserver, rfl⟩

theorem holders_nodup (h : reports.Pairwise fun a b => ¬ Clash a b) (name : Str) :
    ((holders reports name).map Prod.fst).Nodup := by
  rw [holders, List.map_map]
  refine List.pairwise_map.mpr ((h.filter _).imp_of_mem ?_)
  intro a b ha hb hclash hserver
  obtain ⟨hnameA, hfileA⟩ : a.name = name ∧ a.stat.isDir = false := by
    simpa using (List.mem_filter.mp ha).2
  obtain ⟨hnameB, hfileB⟩ : b.name = name ∧ b.stat.isDir = false := by
    simpa using (List.mem_filter.mp hb).2
  exact hclash ⟨hfileA, hfileB, hserver, hnameA.trans hnameB.symm⟩

theorem takeReports_eq {rest : List Report} (h : (reports ++ rest).Pairwise fun a b => ¬ Clash a b) :
    takeReports reports rest = reports ++ rest := by
  induction rest generalizing reports with
  | nil => rw [takeReports, List.append_nil]
  | cons r rest ih =>
    have hapart := (List.pairwise_append.mp h).2.2
    have hnew : ¬ ∃ a ∈ reports, Clash a r := fun ⟨a, ha, hclash⟩ =>
      hapart a ha r List.mem_cons_self hclash
    rw [takeReports, if_neg hnew]
    have hcons : reports ++ r :: rest = reports ++ [r] ++ rest := List.append_cons reports r rest
    rw [hcons] at h ⊢
    exact ih h

end Reports

namespace Disambiguater

/-- The maps hold these reports. -/
structure Holds (d : Disambiguater) (reports : List Report) : Prop where
  filemap_ (name : Str) :
    d.filemap_[name]? = if holders reports name = [] then none else some (holders reports name)
  directorymap_ (name : Str) : d.directorymap_[name]? = (directories reports name).getLast?
  apart : reports.Pairwise fun a b => ¬ Clash a b

variable {d : Disambiguater} {reports : List Report} {r : Report}

theorem holds_new : new.Holds [] :=
  ⟨fun _ => Std.TreeMap.getElem?_emptyc, fun _ => Std.TreeMap.getElem?_emptyc, .nil⟩

private theorem Holds.getD (h : d.Holds reports) (name : Str) :
    d.filemap_.getD name [] = holders reports name := by
  rw [Std.TreeMap.getD_eq_getD_getElem?, h.filemap_]
  split
  · next hnil => rw [hnil, Option.getD_none]
  · rfl

private theorem Holds.apart_append (h : d.Holds reports) (hnew : ¬ ∃ a ∈ reports, Clash a r) :
    (reports ++ [r]).Pairwise fun a b => ¬ Clash a b := by
  refine List.pairwise_append.mpr ⟨h.apart, List.pairwise_singleton _ r, fun a ha b hb hclash => ?_⟩
  obtain rfl := List.mem_singleton.mp hb
  exact hnew ⟨a, ha, hclash⟩

theorem Holds.repeats (h : d.Holds reports) (hclash : ∃ a ∈ reports, Clash a r) :
    d.addFilepath (r.name, r.stat) r.server = (d, Errno.EEXIST.neg) := by
  have hfile : r.stat.isDir = false := hclash.elim fun _ ha => ha.2.2.1
  have hany := (clash_iff hfile).mp hclash
  simp only [addFilepath, hfile, Bool.false_eq_true, if_false, addServer, h.getD, hany, if_true]

theorem Holds.add (h : d.Holds reports) (hnew : ¬ ∃ a ∈ reports, Clash a r) :
    (d.addFilepath (r.name, r.stat) r.server).1.Holds (reports ++ [r]) ∧
      (d.addFilepath (r.name, r.stat) r.server).2 = 0 := by
  cases hdir : r.stat.isDir with
  | true =>
    simp only [addFilepath, hdir, if_true, and_true]
    refine ⟨fun name => ?_, fun name => ?_, h.apart_append hnew⟩
    · rw [holders_append, holders_directory hdir, List.append_nil]
      exact h.filemap_ name
    · rw [directories_append, directories_directory hdir, get_insert, h.directorymap_]
      split
      · rw [List.getLast?_concat]
      · rw [List.append_nil]
  | false =>
    have hany := (not_congr (clash_iff hdir)).mp hnew
    simp only [addFilepath, hdir, Bool.false_eq_true, if_false, addServer, h.getD, hany, and_true]
    refine ⟨fun name => ?_, fun name => ?_, h.apart_append hnew⟩
    · rw [holders_append, holders_file hdir, get_insert, h.filemap_]
      by_cases hname : name = r.name
      · rw [if_pos hname, if_pos hname, if_neg (by simp), hname]
      · rw [if_neg hname, if_neg hname, List.append_nil]
    · rw [directories_append, directories_file hdir, List.append_nil]
      exact h.directorymap_ name

theorem Holds.addOne (h : d.Holds reports) (r : Report) :
    (d.addFilepath (r.name, r.stat) r.server).1.Holds (takeReports reports [r]) := by
  rw [takeReports]
  by_cases hclash : ∃ a ∈ reports, Clash a r
  · rw [if_pos hclash, h.repeats hclash]
    exact h
  · rw [if_neg hclash]
    exact (h.add hclash).1

theorem Holds.addAll {α : Type} {add : Disambiguater → α → Disambiguater × AgerrT} (report : α → Report)
    (hadd : ∀ d a, add d a = d.addFilepath ((report a).name, (report a).stat) (report a).server)
    (h : d.Holds reports) (error : AgerrT) (paths : List α) :
    (Disambiguater.addAll add error d paths).1.Holds (takeReports reports (paths.map report)) := by
  induction paths generalizing d reports error with
  | nil => exact h
  | cons a paths ih =>
    rw [List.map_cons, takeReports, Disambiguater.addAll, hadd]
    by_cases hclash : ∃ b ∈ reports, Clash b (report a)
    · rw [if_pos hclash, h.repeats hclash]
      exact h
    · rw [if_neg hclash]
      obtain ⟨hholds, hzero⟩ := h.add hclash
      simp only [hzero, Int64.lt_irrefl, if_false]
      exact ih hholds 0

end Disambiguater
end AgFS
