import AgFS.Admission.Issuing
import AgFS.Codec.Calls

/-! Whom the generated keys let in, where, and when that is as they were issued. -/
namespace AgFS
open Interaction ByteOrder Tokens
open ClientConnection (AuthScan)
open Keygen (keyStr keyFileName)

/-- Over this list of keys, the constructor takes whoever presents the key for this user and
serves this mount. -/
structure Selects (list : Bytes) (key mount user : Str) : Prop where
  admits : ∀ host connfd pwd, ∃ t₀, (∀ c r, sysEvent c r ∉ t₀) ∧ Sock.heard t₀ = encString key ∧
    Runs (ClientConnection.create host connfd)
      (t₀ ++ admission (some list) mount user pwd (.ok ()) (.ok ())) (.ret ⟨mount, connfd, 0⟩)
  nothingElse : ∀ host connfd t self, Runs (ClientConnection.create host connfd) t (.ret self) →
    (∀ content, sysEvent .readAuthkeys content ∈ t → content = some list) →
    Sock.heard t = encString key → self.socket_ ≠ -1 →
    self = ⟨mount, connfd, 0⟩ ∧
      ∀ name account, sysEvent (.getpwnam name) account ∈ t → name = cstr user

section
variable {list : Bytes} {key mount user : Str}

theorem accepts_matched {host : Endian} {connfd : Fd} {t : List (Event (Sock Kind ServerSys))}
    {self : ClientConnection} (hrun : Runs (ClientConnection.create host connfd) t (.ret self))
    (hlist : ∀ content, sysEvent .readAuthkeys content ∈ t → content = some list)
    (hlen : key.length < 2 ^ 63) (hheard : Sock.heard t = encString key) (hs : self.socket_ ≠ -1) :
    ∃ mount user, matched (words list) (cstr key) = some (mount, user) ∧ self = ⟨mount, connfd, 0⟩ ∧
      ∀ name account, sysEvent (.getpwnam name) account ∈ t → name = cstr user := by
  obtain ⟨t₀, err, clientKey, content, scan, pwd, r₁, r₂, hread, hscan, rfl, rfl⟩ :=
    create_accepts hrun hs
  rw [Sock.heard_append, heard_admission, List.append_nil] at hheard
  have hsent : Sock.heard t₀ = sentKey (some ⟨key, hlen⟩) := hheard
  obtain rfl : clientKey = cstr key := readString_key hread hsent
  obtain rfl : content = some list :=
    hlist content (List.mem_append_right t₀ (by simp [admission]))
  have hquiet (name : Str) (account : Option Passwd) : sysEvent (.getpwnam name) account ∉ t₀ := by
    intro hmem
    have honly : (agfsReadString host connfd [] : ServerIo _).Only (Sock.Within fun _ => False) :=
      only_readString ..
    exact honly.runs hread _ hmem
  refine ⟨scan.mountPath, scan.user, AuthScan.matched_of_run hscan, rfl, fun name account hmem => ?_⟩
  rcases List.mem_append.mp hmem with hmem | hmem
  · exact absurd hmem (hquiet name account)
  · exact mem_admission hmem

private theorem selects_of_matched (hlen : key.length < 2 ^ 63) (hnul : NulFree key)
    (hm : matched (words list) key = some (mount, user)) : Selects list key mount user where
  admits host connfd pwd := by
    have hkey : cstr (keyOf (some ⟨key, hlen⟩)) = key := hnul.cstr_eq
    exact create_admits host connfd (by rw [hkey]; exact hm) pwd (.ok ()) (.ok ())
  nothingElse host connfd t self hrun hlist hheard hs := by
    obtain ⟨mount', user', hm', hself, hnames⟩ := accepts_matched hrun hlist hlen hheard hs
    rw [hnul.cstr_eq] at hm'
    cases hm.symm.trans hm'
    exact ⟨hself, hnames⟩

private theorem mount_of_matched {ws : List Str} (h : matched ws key = some (mount, user)) :
    mount ∈ ws ∨ mount = [] := by
  rcases hfind : (records ws).find? fun r => r.key = key with _ | r
  · rw [matched, hfind, Option.ite_none_right_eq_some] at h
    obtain ⟨-, hfields⟩ := h
    obtain rfl : ws[0]?.getD [] = mount := congrArg Prod.fst (Option.some.inj hfields)
    cases ws with
    | nil => exact .inr rfl
    | cons w ws => exact .inl List.mem_cons_self
  · rw [matched, hfind] at h
    obtain rfl : r.mount = mount := congrArg Prod.fst (Option.some.inj h)
    obtain ⟨i, hi, -, -⟩ := mem_records.mp (List.mem_of_find?_eq_some hfind)
    exact .inl (List.mem_of_getElem? hi)

theorem Selects.mount_plain (h : Selects list key mount user) (hlen : key.length < 2 ^ 63) :
    ∀ b ∈ mount, isSpace b = false := by
  obtain ⟨t₀, hquiet, hheard, hrun⟩ := h.admits .little 4 ⟨0, 0⟩
  have hlist : ∀ content, sysEvent .readAuthkeys content ∈
      t₀ ++ admission (some list) mount user ⟨0, 0⟩ (.ok ()) (.ok ()) → content = some list := by
    intro content hmem
    rcases List.mem_append.mp hmem with hmem | hmem
    · exact absurd hmem (hquiet _ _)
    · simpa [admission, sysEvent] using hmem
  obtain ⟨mount', user', hm, hself, -⟩ := accepts_matched hrun hlist hlen
    (by rw [Sock.heard_append, hheard, heard_admission, List.append_nil])
    (show (4 : Fd) ≠ -1 by decide)
  obtain rfl : mount = mount' := congrArg ClientConnection.mountPoint_ hself
  intro b hb
  rcases mount_of_matched hm with hmem | rfl
  · exact not_isSpace_of_mem_words hmem hb
  · cases hb

end

/-- Successful runs of the key generator, each with arguments and a draw of its own. -/
structure Issues (runs : List Issue) : Prop where
  succeed : ∀ r ∈ runs, ∀ files, (r.run files).1 = 0
  host : ∀ r ∈ runs, r.host ≠ [] ∧ ∀ b ∈ r.host, isSpace b = false
  port : ∀ r ∈ runs, r.port ≠ [] ∧ ∀ b ∈ r.port, isSpace b = false
  user : ∀ r ∈ runs, r.user ≠ [] ∧ ∀ b ∈ r.user, isSpace b = false
  mount : ∀ r ∈ runs, r.mount ≠ []
  draws : ∀ r ∈ runs, r.draw.length = KEY_LEN
  names : (runs.map Issue.name).Nodup
  distinct : (runs.map Issue.draw).Nodup

/-- Every run has made a key with which a client finds the host and is taken for the user, on
the mount of that run. -/
def KeysWork (runs : List Issue) (files : Keygen.Files) : Prop :=
  ∀ r ∈ runs, ∃ content list key, files (keyFileName r.name) = some content ∧
    files KEY_LIST_PATH = some list ∧ readKeyFile content = (r.host, r.port, key) ∧
    key.length = ASCII_KEY_LEN ∧ Selects list key r.mount r.user

namespace Issue

def record (r : Issue) : KeyRecord := ⟨r.mount, r.user, keyStr r.draw⟩

end Issue

namespace Issues
variable {runs : List Issue} (h : Issues runs) {r : Issue}
include h

private theorem key_length (hr : r ∈ runs) : (keyStr r.draw).length = ASCII_KEY_LEN := by
  rw [Keygen.keyStr_length, h.draws r hr]
  rfl

private theorem key_ne_nil (hr : r ∈ runs) : keyStr r.draw ≠ [] := by
  intro hnil
  have hlength := h.key_length hr
  rw [hnil] at hlength
  cases hlength

/-- A client reads from a key file what its run has been given. -/
theorem readKeyFile_keyFile (hr : r ∈ runs) : readKeyFile r.keyFile = (r.host, r.port, keyStr r.draw) := by
  obtain ⟨hhost, hhost'⟩ := h.host r hr
  obtain ⟨hport, hport'⟩ := h.port r hr
  have hwords : words r.keyFile = [r.host, r.port, keyStr r.draw] := by
    have hnl : isSpace 0x0A := rfl
    have htext : r.keyFile = r.host ++ 0x0A :: (r.port ++ 0x0A :: (keyStr r.draw ++ 0x0A :: [])) := by
      simp [Issue.keyFile]
    rw [htext, words_append_space hnl, words_append_space hnl, words_append_space hnl,
      words_of_word hhost hhost', words_of_word hport hport',
      words_of_word (h.key_ne_nil hr) (Keygen.keyStr_plain r.draw)]
    rfl
  have hgood : (AuthScan.start (some r.keyFile)).stream.good := rfl
  obtain ⟨tail, hpass, -⟩ := AuthScan.pass_record hgood hwords
  exact congrArg (fun scan : AuthScan => (scan.mountPath, scan.user, scan.serverKey)) hpass

theorem words_line (hr : r ∈ runs) (hmount : ∀ b ∈ r.mount, isSpace b = false) (rest : Bytes) :
    words (r.line ++ rest) = r.mount :: r.user :: keyStr r.draw :: words rest := by
  obtain ⟨huser, huser'⟩ := h.user r hr
  have hblank : isSpace 0x20 := rfl
  have hnl : isSpace 0x0A := rfl
  have htext : r.line ++ rest = r.mount ++ 0x20 :: (r.user ++ 0x20 :: (keyStr r.draw ++ 0x0A :: rest)) := by
    simp [Issue.line]
  rw [htext, words_append_space hblank, words_append_space hblank, words_append_space hnl,
    words_of_word (h.mount r hr) hmount, words_of_word huser huser',
    words_of_word (h.key_ne_nil hr) (Keygen.keyStr_plain r.draw)]
  rfl

theorem records_lines (hmounts : ∀ r ∈ runs, ∀ b ∈ r.mount, isSpace b = false) :
    records (words (runs.flatMap Issue.line)) = runs.map Issue.record := by
  suffices hpart : ∀ part : List Issue, (∀ r ∈ part, r ∈ runs) →
      records (words (part.flatMap Issue.line)) = part.map Issue.record from hpart runs fun _ hr => hr
  intro part hpart
  induction part with
  | nil => rfl
  | cons r part ih =>
    obtain ⟨hr, hrest⟩ := List.forall_mem_cons.mp hpart
    rw [List.flatMap_cons, h.words_line hr (hmounts r hr), records, ih hrest]
    rfl

private theorem matched_lines (hmounts : ∀ r ∈ runs, ∀ b ∈ r.mount, isSpace b = false) (hr : r ∈ runs) :
    matched (words (runs.flatMap Issue.line)) (keyStr r.draw) = some (r.mount, r.user) := by
  have hfind : ((runs.map Issue.record).find? fun found => found.key = keyStr r.draw) = some r.record := by
    rcases hfound : (runs.map Issue.record).find? fun found => found.key = keyStr r.draw with _ | found
    · have hnone := List.find?_eq_none.mp hfound r.record (List.mem_map_of_mem hr)
      simp [Issue.record] at hnone
    · obtain ⟨r', hr', rfl⟩ := List.mem_map.mp (List.mem_of_find?_eq_some hfound)
      have hsame := List.find?_some hfound
      have hkey : keyStr r'.draw = keyStr r.draw := of_decide_eq_true hsame
      obtain rfl : r' = r := List.inj_on_of_nodup_map h.distinct hr' hr (Keygen.keyStr_injective hkey)
      exact hfound
  rw [matched, h.records_lines hmounts, hfind]
  rfl

private theorem key_selects (hmounts : ∀ r ∈ runs, ∀ b ∈ r.mount, isSpace b = false) (hr : r ∈ runs) :
    Selects (runs.flatMap Issue.line) (keyStr r.draw) r.mount r.user := by
  have hlength := h.key_length hr
  exact selects_of_matched (by rw [hlength]; decide) (Keygen.keyStr_nulFree r.draw) (h.matched_lines hmounts hr)

theorem files_after (hr : r ∈ runs) {files : Keygen.Files} (hempty : (files KEY_LIST_PATH).getD [] = []) :
    issueAll runs files (keyFileName r.name) = some r.keyFile ∧
      issueAll runs files KEY_LIST_PATH = some (runs.flatMap Issue.line) := by
  obtain ⟨list, hlist⟩ := Option.isSome_iff_exists.mp
    (issueAll_opened h.succeed files (List.ne_nil_of_mem hr))
  have hcontent := issueAll_list h.succeed files
  rw [hlist, hempty] at hcontent
  rw [hlist, ← show list = runs.flatMap Issue.line from hcontent]
  exact ⟨issueAll_keyFile h.succeed h.names files hr, rfl⟩

end Issues

/-- The generated keys work as issued if and only if no mount has white space in it. -/
theorem keysWork_iff {runs : List Issue} (h : Issues runs) {files : Keygen.Files}
    (hempty : files KEY_LIST_PATH = none ∨ files KEY_LIST_PATH = some []) :
    KeysWork runs (issueAll runs files) ↔ ∀ r ∈ runs, ∀ b ∈ r.mount, isSpace b = false := by
  have hnothing : (files KEY_LIST_PATH).getD [] = [] := by
    rcases hempty with hnone | hsome
    · rw [hnone]
      rfl
    · rw [hsome]
      rfl
  constructor
  · intro hwork r hr
    obtain ⟨content, list, key, -, -, -, hlength, hselects⟩ := hwork r hr
    exact hselects.mount_plain (by rw [hlength]; decide)
  · intro hmounts r hr
    obtain ⟨hfile, hlist⟩ := h.files_after hr hnothing
    exact ⟨r.keyFile, runs.flatMap Issue.line, keyStr r.draw, hfile, hlist, h.readKeyFile_keyFile hr,
      h.key_length hr, h.key_selects hmounts hr⟩

/-- The arguments `h 1 bob /m k`, where everything opens and only zeros are drawn. -/
def plainIssue (mount : Str) : Issue where
  program := []
  host := [0x68]
  port := [0x31]
  user := [0x62, 0x6F, 0x62]
  mount := mount
  name := [0x6B]
  draw := List.replicate KEY_LEN 0
  system := ⟨true, true, true, true⟩

private theorem issues_plain {mount : Str} (hmount : mount ≠ []) : Issues [plainIssue mount] where
  succeed := by simp [plainIssue, Issue.run, Keygen.main]
  host := by simp [plainIssue, isSpace]
  port := by simp [plainIssue, isSpace]
  user := by simp [plainIssue, isSpace]
  mount := by simpa [plainIssue] using hmount
  draws := by simp [plainIssue]
  names := List.nodup_singleton _
  distinct := List.nodup_singleton _

/-- The arguments `g 2 eve /n l`, with another draw. -/
def otherIssue : Issue where
  program := []
  host := [0x67]
  port := [0x32]
  user := [0x65, 0x76, 0x65]
  mount := [0x2F, 0x6E]
  name := [0x6C]
  draw := List.replicate KEY_LEN 1
  system := ⟨true, true, true, true⟩

private theorem issues_twoRuns : Issues [plainIssue [0x2F, 0x6D], otherIssue] where
  succeed := by simp [plainIssue, otherIssue, Issue.run, Keygen.main]
  host := by simp [plainIssue, otherIssue, isSpace]
  port := by simp [plainIssue, otherIssue, isSpace]
  user := by simp [plainIssue, otherIssue, isSpace]
  mount := by simp [plainIssue, otherIssue]
  draws := by simp [plainIssue, otherIssue]
  names := by simp [plainIssue, otherIssue]
  distinct := by
    refine List.nodup_cons.mpr ⟨fun hmem => ?_, List.nodup_singleton _⟩
    exact absurd (congrArg List.head? (List.mem_singleton.mp hmem)) (by decide)

theorem keysWork_iff_twoRuns :
    KeysWork [plainIssue [0x2F, 0x6D], otherIssue]
      (issueAll [plainIssue [0x2F, 0x6D], otherIssue] fun _ => none) :=
  (keysWork_iff issues_twoRuns (.inl rfl)).mpr (by simp [plainIssue, otherIssue, isSpace])

/-- The key for the mount `/a b` is not for that mount. -/
theorem not_keysWork_blank :
    Issues [plainIssue [0x2F, 0x61, 0x20, 0x62]] ∧
      ¬ KeysWork [plainIssue [0x2F, 0x61, 0x20, 0x62]]
        (issueAll [plainIssue [0x2F, 0x61, 0x20, 0x62]] fun _ => none) := by
  refine ⟨issues_plain (by decide), fun hwork => ?_⟩
  obtain ⟨content, list, key, -, -, -, hlength, hselects⟩ := hwork _ (List.mem_singleton_self _)
  have hplain := hselects.mount_plain (by rw [hlength]; decide) 0x20 (by decide)
  cases hplain

end AgFS
