import Pktscope.Decode.Fingerprint
import Pktscope.Library.Memo
import Pktscope.Library.Text
import Pktscope.Process.Identity

/-! # The cache of binary identities

The identity of an executable is computed once for each displayed path, modification
time and size, and kept in a cache of all threads. The key is read before the file
is, so that a file that changes in between is kept under the key of its former
contents, and it shows the path as text, so that paths that are not UTF-8 can share
one. As long as no file gets back a time and a size that it had with other contents,
and none has those of a file that is displayed alike, no call tells: it answers the
identity that the file had while it ran.
-/

namespace Pktscope

open Library

structure FileMeta where
  /-- Nanoseconds since the epoch, where the platform has them. -/
  modified : Option ℤ
  len : ℕ
  deriving DecidableEq

/-- A file, if there is one, and what reading it gives. -/
structure FileState where
  metadata : Option FileMeta
  contents : Option (List UInt8)

/-- The files, by path. -/
abbrev Files := OsPath → FileState

/-- The time in a key; there is none before the epoch. -/
def FileMeta.mtime (md : FileMeta) : ℕ := ((md.modified.filter fun t => 0 ≤ t).getD 0).toNat

def cacheKey (path : OsPath) (md : FileMeta) : String := s!"{path.display}|{md.mtime}|{md.len}"

abbrev IdentityCache := LruCache String BinaryIdentity

def identityCapacity : ℕ := 1024

def newIdentityCache : IdentityCache := .empty identityCapacity (by decide)

def cacheGet (cache : IdentityCache) (key : String) : Option BinaryIdentity × IdentityCache :=
  cache.get key

def cachePut (cache : IdentityCache) (key : String) (value : BinaryIdentity) : IdentityCache :=
  cache.put key value

section Identify

variable [Digests]

def sha256File (files : Files) (path : OsPath) : Option String :=
  (files path).contents.map fun data => hex (Digests.sha256 data).toList

/-- The identity of the executable at a path, where nothing else happens during the call. -/
def identify (files : Files) (cache : IdentityCache) (path : OsPath) :
    BinaryIdentity × IdentityCache :=
  match (files path).metadata.map (cacheKey path) with
  | none => (.computeIdentity (sha256File files) path, cache)
  | some k =>
    match cacheGet cache k with
    | (some hit, cache) => (hit, cache)
    | (none, cache) =>
      let id := BinaryIdentity.computeIdentity (sha256File files) path
      (id, cachePut cache k id)

/-- The threads that identify executables while files change. -/
def identityMemo : Memo Files OsPath String BinaryIdentity where
  key files path := (files path).metadata.map (cacheKey path)
  value files path := .computeIdentity (sha256File files) path

/-- The files, the cache and the calls before any move. -/
def identityStart (files : Files) : MemoState Files OsPath String BinaryIdentity :=
  .start files identityCapacity (by decide)

/-- The files after a number of moves. -/
def filesAt (files : Files) (moves : List (MemoMove Files OsPath)) (t : ℕ) : Files :=
  identityMemo.worldAt (identityStart files) moves t

end Identify

/-- A file that has a time and a size, and has them again, had the same contents all the time. -/
def StampsLast (files : ℕ → Files) : Prop :=
  ∀ {path : OsPath} {i t j : ℕ} {a b : FileMeta}, i ≤ t → t ≤ j →
    (files i path).metadata = some a → (files j path).metadata = some b →
    a.mtime = b.mtime → a.len = b.len → (files t path).contents = (files j path).contents

/-- Files that are displayed alike never have the same time and size, unless they are one. -/
def DisplaysApart (files : ℕ → Files) : Prop :=
  ∀ {p q : OsPath} {i j : ℕ} {a b : FileMeta}, (files i p).metadata = some a →
    (files j q).metadata = some b → p.display = q.display → a.mtime = b.mtime → a.len = b.len → p = q

/-- A call for a path that is displayed alike, while its file has the same time and size. -/
def SameFile (path : OsPath) (md : FileMeta) (c : Files × OsPath) : Prop :=
  c.2.display = path.display ∧
    ∃ a, (c.1 c.2).metadata = some a ∧ a.mtime = md.mtime ∧ a.len = md.len

section Keys

theorem toList_cacheKey (path : OsPath) (md : FileMeta) :
    (cacheKey path md).toList =
      (path.display.toList ++ '|' :: Nat.toDigits 10 md.mtime) ++ '|' :: Nat.toDigits 10 md.len := by
  simp [cacheKey, Nat.toList_repr, toString]

theorem cacheKey_eq_iff {path path' : OsPath} {a b : FileMeta} :
    cacheKey path a = cacheKey path' b ↔
      path.display = path'.display ∧ a.mtime = b.mtime ∧ a.len = b.len := by
  constructor
  swap
  · rintro ⟨hpath, hmtime, hlen⟩
    rw [cacheKey, cacheKey, hpath, hmtime, hlen]
  intro h
  have hlist := congrArg String.toList h
  rw [toList_cacheKey, toList_cacheKey] at hlist
  have hbar (n : ℕ) : '|' ∉ Nat.toDigits 10 n := not_mem_toDigits (by decide) n
  obtain ⟨hfront, hlen⟩ := append_cons_inj_right (hbar _) (hbar _) hlist
  obtain ⟨hpath, hmtime⟩ := append_cons_inj_right (hbar _) (hbar _) hfront
  refine ⟨String.toList_injective hpath, ?_, ?_⟩
  · exact toDigits_inj (by decide) (by decide) hmtime
  · exact toDigits_inj (by decide) (by decide) hlen

theorem display_inj {s t : String} (h : OsPath.display (utf8Bytes s) = OsPath.display (utf8Bytes t)) :
    utf8Bytes s = utf8Bytes t := by
  rw [OsPath.display, OsPath.display, fromUtf8Lossy_utf8Bytes, fromUtf8Lossy_utf8Bytes] at h
  rw [h]

theorem displaysApart_of_text {files : ℕ → Files}
    (h : ∀ i p, (files i p).metadata.isSome = true → ∃ s, p = utf8Bytes s) : DisplaysApart files := by
  rintro p q i j a b ha hb hdisplay - -
  obtain ⟨s, rfl⟩ := h i p (by rw [ha]; rfl)
  obtain ⟨t, rfl⟩ := h j q (by rw [hb]; rfl)
  exact display_inj hdisplay

end Keys

section Calls

variable [Digests]

theorem identify_eq_ask (files : Files) (cache : IdentityCache) (path : OsPath) :
    identify files cache path = identityMemo.ask files cache path := by
  simp only [identify, Memo.ask, identityMemo]
  cases (files path).metadata with
  | none => rfl
  | some md =>
    simp only [Option.map_some, cacheGet, cachePut]
    rcases cache.get (cacheKey path md) with ⟨_ | hit, cache⟩ <;> rfl

theorem lasting {files : ℕ → Files} (h : StampsLast files) (hapart : DisplaysApart files) :
    identityMemo.Lasting files where
  arg_eq := by
    intro i j p q k hp hq
    obtain ⟨a, ha, hka⟩ := Option.map_eq_some_iff.mp hp
    obtain ⟨b, hb, hkb⟩ := Option.map_eq_some_iff.mp hq
    obtain ⟨hdisplay, hmtime, hlen⟩ := cacheKey_eq_iff.mp (hka.trans hkb.symm)
    exact hapart ha hb hdisplay hmtime hlen
  value_eq := by
    intro i t j p k hit htj hi hj
    obtain ⟨a, ha, hka⟩ := Option.map_eq_some_iff.mp hi
    obtain ⟨b, hb, hkb⟩ := Option.map_eq_some_iff.mp hj
    obtain ⟨-, hmtime, hlen⟩ := cacheKey_eq_iff.mp (hka.trans hkb.symm)
    have hcontents := h hit htj ha hb hmtime hlen
    simp only [identityMemo, BinaryIdentity.computeIdentity, sha256File, hcontents]

/-- The cache after calls that follow each other. -/
def identifyAll (calls : List (Files × OsPath)) : IdentityCache :=
  calls.foldl (fun cache c => (identify c.1 cache c.2).2) newIdentityCache

/-- The keys of some calls. -/
def identityKeys (calls : List (Files × OsPath)) : List String :=
  calls.filterMap fun c => (c.1 c.2).metadata.map (cacheKey c.2)

omit [Digests] in
theorem sameFile_iff {path : OsPath} {md : FileMeta} {c : Files × OsPath} :
    SameFile path md c ↔ (c.1 c.2).metadata.map (cacheKey c.2) = some (cacheKey path md) := by
  rw [Option.map_eq_some_iff]
  constructor
  · rintro ⟨hdisplay, a, ha, hmtime, hlen⟩
    exact ⟨a, ha, cacheKey_eq_iff.mpr ⟨hdisplay, hmtime, hlen⟩⟩
  · rintro ⟨a, ha, hkey⟩
    obtain ⟨hdisplay, hmtime, hlen⟩ := cacheKey_eq_iff.mp hkey
    exact ⟨hdisplay, a, ha, hmtime, hlen⟩

theorem identifyAll_eq (calls : List (Files × OsPath)) :
    identifyAll calls = identityMemo.cacheAfter newIdentityCache calls := by
  simp only [identifyAll, Memo.cacheAfter, identify_eq_ask]

/-- The identity is computed only when a displayed path first has a time and a size: up to the
capacity of the cache no entry is ever dropped, and later calls answer what the first one did. -/
theorem identify_once {calls : List (Files × OsPath)} {files : Files} {path : OsPath}
    {md : FileMeta} (hmd : (files path).metadata = some md)
    (hkeys : (identityKeys (calls ++ [(files, path)])).dedup.length ≤ identityCapacity) :
    (∃ before c after, calls ++ [(files, path)] = before ++ c :: after ∧
      SameFile path md c ∧ (∀ c' ∈ before, ¬ SameFile path md c') ∧
      (identify files (identifyAll calls) path).1 = .computeIdentity (sha256File c.1) c.2) ∧
    ∀ before after k v, calls ++ [(files, path)] = before ++ after →
      (identifyAll before).peek k = some v →
        (identifyAll (calls ++ [(files, path)])).peek k = some v := by
  have hkey : identityMemo.key files path = some (cacheKey path md) := by
    simp [identityMemo, hmd]
  constructor
  · have hfirst :
        some (identityMemo.ask files (identityMemo.cacheAfter newIdentityCache calls) path).1 =
          identityMemo.firstValue (calls ++ [(files, path)]) (cacheKey path md) :=
      Memo.ask_cacheAfter hkeys hkey
    rw [Memo.firstValue, eq_comm, Option.map_eq_some_iff] at hfirst
    obtain ⟨c, hfind, hvalue⟩ := hfirst
    obtain ⟨hsame, before, after, hsplit, hbefore⟩ := List.find?_eq_some_iff_append.mp hfind
    have hc : SameFile path md c := sameFile_iff.mpr (of_decide_eq_true hsame)
    refine ⟨before, c, after, hsplit, hc, ?_, ?_⟩
    · intro c' hc' hsame'
      have hkey' : identityMemo.key c'.1 c'.2 = some (cacheKey path md) := sameFile_iff.mp hsame'
      have hnot := hbefore c' hc'
      rw [decide_eq_true hkey'] at hnot
      cases hnot
    · rw [identify_eq_ask, identifyAll_eq]
      exact hvalue.symm
  · intro before after k v hsplit hpeek
    rw [hsplit] at hkeys ⊢
    rw [identifyAll_eq] at hpeek ⊢
    exact Memo.peek_cacheAfter_append hkeys hpeek

end Calls

section Samples

/-- `/bin/a` -/
def samplePath : OsPath := utf8Bytes "/bin/a"

def sampleFiles (n : ℕ) : Files := fun path =>
  if path = samplePath then ⟨some ⟨some n, 1⟩, some [UInt8.ofNat n]⟩ else ⟨none, none⟩

/-- A file that changes between the reading of its key and of its contents. -/
def sampleCall : List (MemoMove Files OsPath) :=
  [.call 0 samplePath, .turn 0, .change (sampleFiles 6), .turn 0, .turn 0]

theorem mtime_of_nat (n len : ℕ) : FileMeta.mtime ⟨some n, len⟩ = n := by
  simp [FileMeta.mtime, Option.filter]

theorem filesAt_sample [Digests] (t : ℕ) :
    filesAt (sampleFiles 5) sampleCall t = sampleFiles (if t < 3 then 5 else 6) := by
  rw [filesAt, Memo.worldAt_eq]
  rcases Nat.lt_or_ge t 5 with ht | ht
  · obtain rfl | rfl | rfl | rfl | rfl : t = 0 ∨ t = 1 ∨ t = 2 ∨ t = 3 ∨ t = 4 := by omega
    all_goals rfl
  · rw [List.take_of_length_le ht, if_neg (by omega)]
    rfl

theorem stampsLast_sample [Digests] : StampsLast (filesAt (sampleFiles 5) sampleCall) := by
  intro path i t j a b hit htj ha hb hmtime _
  rw [filesAt_sample] at ha hb ⊢
  rw [filesAt_sample]
  by_cases hpath : path = samplePath
  · simp only [sampleFiles, hpath, if_true, Option.some.injEq] at ha hb
    subst ha hb
    have hstamp : (if i < 3 then 5 else 6) = if j < 3 then 5 else 6 := by
      rwa [mtime_of_nat, mtime_of_nat] at hmtime
    have hsame : (if t < 3 then 5 else 6) = if j < 3 then 5 else 6 := by
      split_ifs at hstamp ⊢ <;> omega
    rw [hsame]
  · simp [sampleFiles, hpath] at ha

theorem displaysApart_sample [Digests] : DisplaysApart (filesAt (sampleFiles 5) sampleCall) := by
  refine displaysApart_of_text fun i p hp => ⟨"/bin/a", ?_⟩
  rw [filesAt_sample] at hp
  by_contra hne
  change ¬p = samplePath at hne
  rw [sampleFiles, if_neg hne] at hp
  cases hp

/-- Contents that change under the time and the size that they had before. -/
def staleFiles : Files := fun _ => ⟨some ⟨some 5, 1⟩, some [9]⟩

theorem identify_once_sample : ∃ _ : Digests,
    ∃ before c after,
      [(sampleFiles 5, samplePath)] ++ [(staleFiles, samplePath)] = before ++ c :: after ∧
      SameFile samplePath ⟨some 5, 1⟩ c ∧ (∀ c' ∈ before, ¬ SameFile samplePath ⟨some 5, 1⟩ c') ∧
      (identify staleFiles (identifyAll [(sampleFiles 5, samplePath)]) samplePath).1 =
        .computeIdentity (sha256File c.1) c.2 := by
  let digests : Digests := ⟨fun _ => Vector.replicate 16 0, fun _ => Vector.replicate 32 0⟩
  exact ⟨digests, (identify_once rfl (by decide +kernel)).1⟩

/-- Two bytes that are no text are displayed alike: a key does not tell these paths apart. -/
example : cacheKey [0xff] ⟨some 5, 1⟩ = cacheKey [0xfe] ⟨some 5, 1⟩ := by decide +kernel

end Samples

end Pktscope
