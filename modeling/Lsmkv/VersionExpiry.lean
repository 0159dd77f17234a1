import Mathlib.Data.List.MinMax
import Lsmkv.Store

/-!
# Versions that were dropped

`BuildWhenCompaction` (`src/levelcache.cpp`) drops the entries whose sequence numbers are below
`LastLivingSequence`, tombstones among them, whether or not older versions of the key are left in
other tables.  What makes this right is the check in `VLogReader::Read`, which refuses a version
below the bound that it finds.

So a reader of the newest version cannot tell a set of tables from what compactions under earlier
bounds have made of it (`getNewest_compactions`): a version that is alive was not dropped, and where
the newest one has expired there is nothing to read either way.
-/

namespace Lsmkv

open ByteCode Files

/-- Tables, with the value logs that their locations name. -/
structure TableSet where
  tables : List (List (Entry VLogEntryInfo))
  vlogs : VLogDir
  lastVlogFileNo : ℕ

/-- The entries of all tables. -/
def TableSet.entries (t : TableSet) : List (Entry VLogEntryInfo) := t.tables.flatten

/-- The versions of a user key. -/
def versionsOf (es : List (Entry VLogEntryInfo)) (u : Bytes) : List (Entry VLogEntryInfo) :=
  es.filter fun e => decide (e.key.userKey = u)

/-- The newest version of a user key: the one with the largest sequence number. -/
def newestVersion (es : List (Entry VLogEntryInfo)) (u : Bytes) : Option (Entry VLogEntryInfo) :=
  (versionsOf es u).argmax fun e => e.key.seq

/-- The end of `GetImpl` behind a lookup that finds the newest version: its location, unless it is
a tombstone, is read from the value log. -/
def TableSet.getNewest (crc32c : Bytes → ℕ) (live : ℕ) (t : TableSet) (u : Bytes) : Outcome Bytes := do
  let info ← sstAnswer (newestVersion t.entries u)
  if info.length = 0 then .fail .kNotFound else readVLog crc32c (some live) t.vlogs info

/-- **What may happen to the tables** while the bound is at most `live`.  Two or more of them are
merged, under a bound of their time; or the value logs change otherwise, and the records that the
entries name stay. -/
inductive TableSet.Step (crc32c : Bytes → ℕ) (live : ℕ) : TableSet → TableSet → Prop
  | compact {t : TableSet} {inputs rest : List (List (Entry VLogEntryInfo))} {buildVlog : Bool}
      {bound fileno : ℕ} {b : Build VLogEntryInfo} {w : VLogWork} (split : t.tables.Perm (inputs ++ rest))
      (ne : inputs ≠ []) (earlier : bound ≤ live)
      (built : buildWhenCompaction crc32c buildVlog bound fileno ⟨t.lastVlogFileNo, t.vlogs, .new⟩ inputs
        = .ok (b, w)) :
      Step crc32c live t ⟨b.newFiles.map (·.entries) ++ rest, w.vlogs, w.lastVlogFileNo⟩
  | logs {t : TableSet} {vlogs : VLogDir} {lastVlogFileNo : ℕ} (wellFormed : vlogs.WellFormed)
      (fresh : ∀ n, lastVlogFileNo ≤ n → vlogs.inode n = none)
      (kept : ∀ e ∈ t.entries, ∀ v, Resolves crc32c t.vlogs e.value e.key v →
        Resolves crc32c vlogs e.value e.key v) :
      Step crc32c live t ⟨t.tables, vlogs, lastVlogFileNo⟩

/-- The tables hold versions: their keys have tags of 64 bits, and the value of each is in its value
log. -/
structure TableSet.Sound (crc32c : Bytes → ℕ) (t : TableSet) : Prop where
  wellFormed : t.vlogs.WellFormed
  fresh : ∀ n, t.lastVlogFileNo ≤ n → t.vlogs.inode n = none
  tags : ∀ e ∈ t.entries, e.key.tag < 2 ^ 64
  readable : ∀ e ∈ t.entries, Readable crc32c t.vlogs e

/-- There is nothing to read. -/
def Absent (r : Outcome Bytes) : Prop := r = .fail .kNotFound ∨ r = .fail .kExpired

theorem Absent.ne_ok {r : Outcome Bytes} (h : Absent r) (v : Bytes) : r ≠ .ok v := by
  rcases h with rfl | rfl
  · exact nofun
  · exact nofun

variable {crc32c : Bytes → ℕ} {live : ℕ} {t t₀ : TableSet} {u : Bytes}

/-- With no value log open, this is how `GetImpl` ends. -/
theorem Store.resolve_newest (s : Store) (closed : s.handles = []) (es : List (Entry VLogEntryInfo)) :
    (s.resolve crc32c (sstAnswer (newestVersion es u))).1
      = TableSet.getNewest crc32c s.lastLivingSequence ⟨[es], s.vlogs, s.lastVlogFileNo⟩ u := by
  have hentries : TableSet.entries ⟨[es], s.vlogs, s.lastVlogFileNo⟩ = es := List.flatten_singleton
  rw [TableSet.getNewest, hentries]
  cases sstAnswer (newestVersion es u) with
  | fail c => rfl
  | fault => rfl
  | ok info =>
      show (if info.length = 0 then _ else _ : Outcome Bytes × Store).1 = if info.length = 0 then _ else _
      split
      · rfl
      · simp only [Store.readValue, closed, List.find?_nil, readVLog, Dir.contents]
        cases s.vlogs.inode info.fileNo <;> rfl

/-! ## The newest version -/

theorem mem_versionsOf {es : List (Entry VLogEntryInfo)} {e : Entry VLogEntryInfo} :
    e ∈ versionsOf es u ↔ e ∈ es ∧ e.key.userKey = u := by
  rw [versionsOf, List.mem_filter, decide_eq_true_eq]

theorem newestVersion_eq_none {es : List (Entry VLogEntryInfo)} :
    newestVersion es u = none ↔ ∀ e ∈ es, e.key.userKey ≠ u := by
  rw [newestVersion, List.argmax_eq_none, List.eq_nil_iff_forall_not_mem]
  simp only [mem_versionsOf, not_and, ne_eq]

theorem newestVersion_spec {es : List (Entry VLogEntryInfo)} {e : Entry VLogEntryInfo}
    (h : newestVersion es u = some e) :
    e ∈ es ∧ e.key.userKey = u ∧ ∀ e' ∈ es, e'.key.userKey = u → e'.key.seq ≤ e.key.seq := by
  obtain ⟨hmem, hu⟩ := mem_versionsOf.mp (List.argmax_mem h)
  refine ⟨hmem, hu, fun e' he' hu' => ?_⟩
  exact List.le_of_mem_argmax (f := fun e : Entry VLogEntryInfo => e.key.seq)
    (mem_versionsOf.mpr ⟨he', hu'⟩) h

theorem getNewest_of_none (h : newestVersion t.entries u = none) :
    t.getNewest crc32c live u = .fail .kNotFound := by
  rw [TableSet.getNewest, h]
  rfl

theorem getNewest_of_tombstone {e : Entry VLogEntryInfo} (h : newestVersion t.entries u = some e)
    (tombstone : e.key.type ≠ .kTypeValue) : t.getNewest crc32c live u = .fail .kNotFound := by
  rw [TableSet.getNewest, h, sstAnswer, if_neg tombstone]
  rfl

theorem getNewest_of_value {e : Entry VLogEntryInfo} (h : newestVersion t.entries u = some e)
    (value : e.key.type = .kTypeValue) (tag : e.key.tag < 2 ^ 64) {v : Bytes}
    (resolves : Resolves crc32c t.vlogs e.value e.key v) :
    t.getNewest crc32c live u = if e.key.seq < live then .fail .kExpired else .ok v := by
  have hlength : e.value.length ≠ 0 := by
    rw [resolves.length_eq, recordLength]
    omega
  rw [TableSet.getNewest, h, sstAnswer, if_pos value]
  show (if e.value.length = 0 then _ else _) = _
  rw [if_neg hlength, readVLog_some_of_resolves resolves tag]

/-- Where the newest version has expired, there is nothing to read. -/
theorem absent_of_expired (sound : t.Sound crc32c)
    (expired : ∀ e ∈ t.entries, e.key.userKey = u → e.key.seq < live) :
    Absent (t.getNewest crc32c live u) := by
  cases hnewest : newestVersion t.entries u with
  | none => exact .inl (getNewest_of_none hnewest)
  | some e =>
      obtain ⟨hmem, hu, -⟩ := newestVersion_spec hnewest
      by_cases hvalue : e.key.type = .kTypeValue
      · obtain ⟨v, hv⟩ := sound.readable e hmem hvalue
        rw [getNewest_of_value hnewest hvalue (sound.tags e hmem) hv, if_pos (expired e hmem hu)]
        exact .inr rfl
      · exact .inl (getNewest_of_tombstone hnewest hvalue)

/-! ## What compactions leave -/

/-- **What is left of the tables**: versions that were there, with the same values, and all that are
alive. -/
structure Thinned (crc32c : Bytes → ℕ) (live : ℕ) (t₀ t : TableSet) : Prop where
  origin : ∀ e ∈ t.entries, ∃ e₀ ∈ t₀.entries, e.key = e₀.key ∧
    (e₀.key.type = .kTypeValue → ∀ v, Resolves crc32c t₀.vlogs e₀.value e₀.key v →
      Resolves crc32c t.vlogs e.value e.key v)
  kept : ∀ e₀ ∈ t₀.entries, live ≤ e₀.key.seq → ∃ e ∈ t.entries, e.key = e₀.key

theorem Thinned.refl (t : TableSet) : Thinned crc32c live t t :=
  ⟨fun e he => ⟨e, he, rfl, fun _ _ hv => hv⟩, fun e he _ => ⟨e, he, rfl⟩⟩

theorem Thinned.trans {t₁ : TableSet} (h : Thinned crc32c live t₀ t₁) (h' : Thinned crc32c live t₁ t) :
    Thinned crc32c live t₀ t where
  origin e he := by
    obtain ⟨e₁, he₁, hkey₁, hvalue₁⟩ := h'.origin e he
    obtain ⟨e₀, he₀, hkey₀, hvalue₀⟩ := h.origin e₁ he₁
    exact ⟨e₀, he₀, hkey₁.trans hkey₀, fun htype v hv =>
      hvalue₁ (hkey₀ ▸ htype) v (hvalue₀ htype v hv)⟩
  kept e₀ he₀ hlive := by
    obtain ⟨e₁, he₁, hkey₁⟩ := h.kept e₀ he₀ hlive
    obtain ⟨e, he, hkey⟩ := h'.kept e₁ he₁ (hkey₁ ▸ hlive)
    exact ⟨e, he, hkey.trans hkey₁⟩

/-- Versions that are left are sound where the logs are. -/
theorem Thinned.sound (h : Thinned crc32c live t₀ t) (sound : t₀.Sound crc32c)
    (wellFormed : t.vlogs.WellFormed) (fresh : ∀ n, t.lastVlogFileNo ≤ n → t.vlogs.inode n = none) :
    t.Sound crc32c where
  wellFormed := wellFormed
  fresh := fresh
  tags e he := by
    obtain ⟨e₀, he₀, hkey, -⟩ := h.origin e he
    exact hkey ▸ sound.tags e₀ he₀
  readable e he htype := by
    obtain ⟨e₀, he₀, hkey, hvalue⟩ := h.origin e he
    obtain ⟨v, hv⟩ := sound.readable e₀ he₀ (hkey ▸ htype)
    exact ⟨v, hvalue (hkey ▸ htype) v hv⟩

/-- **What one compaction does.** -/
theorem TableSet.Step.thinned {t' : TableSet} (h : t.Step crc32c live t') (sound : t.Sound crc32c) :
    Thinned crc32c live t t' ∧ t'.Sound crc32c := by
  cases h with
  | @logs vlogs lastVlogFileNo wellFormed fresh kept =>
      have hthinned : Thinned crc32c live t ⟨t.tables, vlogs, lastVlogFileNo⟩ :=
        ⟨fun e he => ⟨e, he, rfl, fun _ v hv => kept e he v hv⟩, fun e he _ => ⟨e, he, rfl⟩⟩
      exact ⟨hthinned, hthinned.sound sound wellFormed fresh⟩
  | @compact inputs rest buildVlog bound fileno b w split ne earlier built =>
      have hmem : ∀ e, e ∈ t.entries ↔ e ∈ inputs.flatten ∨ e ∈ rest.flatten := by
        intro e
        rw [← List.mem_append, ← List.flatten_append]
        exact split.flatten.mem_iff
      obtain ⟨visited, hvisit, -⟩ := Outcome.bind_eq_ok.mp built
      -- the loser tree returned, so there are at least two inputs
      have hsome : LoserTree.visit (fun e => e.key.encode) inputs = some visited := by
        cases hv : LoserTree.visit (fun e : Entry VLogEntryInfo => e.key.encode) inputs with
        | none => simp [hv] at hvisit
        | some out => simpa [hv] using hvisit
      have htwo := two_le_of_visit ne hsome
      have hperm := visit_perm htwo hsome
      obtain ⟨b', w', visited', hvisit', hok, hout, hbase, hwritten⟩ :=
        buildWhenCompaction_written crc32c buildVlog bound fileno
          (w := ⟨t.lastVlogFileNo, t.vlogs, .new⟩) htwo sound.wellFormed sound.fresh
          fun e he _ => sound.readable e ((hmem e).mpr (.inl he))
      obtain rfl : visited = visited' := Option.some.inj (hsome.symm.trans hvisit')
      obtain ⟨rfl, rfl⟩ : b = b' ∧ w = w' := by simpa using built.symm.trans hok
      have hfiles : (b.newFiles.map (·.entries)).flatten = b.written := by
        rw [Build.written, hout, List.append_nil, List.flatMap_def]
      have hmem' : ∀ e, e ∈ TableSet.entries ⟨b.newFiles.map (·.entries) ++ rest, w.vlogs, w.lastVlogFileNo⟩ ↔
          e ∈ b.written ∨ e ∈ rest.flatten := by
        intro e
        rw [TableSet.entries, List.flatten_append, List.mem_append, hfiles]
      have hthinned : Thinned crc32c live t
          ⟨b.newFiles.map (·.entries) ++ rest, w.vlogs, w.lastVlogFileNo⟩ := by
        refine ⟨fun e he => ?_, fun e₀ he₀ hlive => ?_⟩
        -- an entry is written from one of the inputs, or is of a table that was no input
        · rcases (hmem' e).mp he with he | he
          · obtain ⟨e₀, he₀, hrewritten⟩ := exists_of_forall₂ hwritten he
            have hin := hperm.mem_iff.mp (List.mem_filter.mp he₀).1
            exact ⟨e₀, (hmem e₀).mpr (.inl hin), hrewritten.key,
              fun htype v hv => hrewritten.key ▸ hrewritten.value htype v hv⟩
          · exact ⟨e, (hmem e).mpr (.inr he), rfl, fun _ v hv => hv.mono (hbase.grows _)⟩
        · rcases (hmem e₀).mp he₀ with he₀ | he₀
          · have hkept : e₀ ∈ visited.filter fun e => decide (bound ≤ e.key.seq) :=
              List.mem_filter.mpr ⟨hperm.mem_iff.mpr he₀, by simpa using earlier.trans hlive⟩
            obtain ⟨e, he, hrewritten⟩ := exists_of_forall₂ hwritten.flip hkept
            exact ⟨e, (hmem' e).mpr (.inl he), hrewritten.key⟩
          · exact ⟨e₀, (hmem' e₀).mpr (.inr he₀), rfl⟩
      exact ⟨hthinned, hthinned.sound sound hbase.wf hbase.fresh⟩

/-- What a history of compactions does. -/
theorem thinned_of_run (run : Relation.ReflTransGen (TableSet.Step crc32c live) t₀ t)
    (sound : t₀.Sound crc32c) : Thinned crc32c live t₀ t ∧ t.Sound crc32c := by
  induction run with
  | refl => exact ⟨.refl t₀, sound⟩
  | tail _ taken ih =>
      obtain ⟨hthinned, hsound⟩ := taken.thinned ih.2
      exact ⟨ih.1.trans hthinned, hsound⟩

/-- **A version that is alive is found in what is left**, with its value. -/
theorem getNewest_of_alive (h : Thinned crc32c live t₀ t) (sound : t₀.Sound crc32c)
    (distinct : (versionsOf t₀.entries u).Pairwise fun e e' => e.key.seq ≠ e'.key.seq)
    {e₀ : Entry VLogEntryInfo} (newest : newestVersion t₀.entries u = some e₀)
    (alive : live ≤ e₀.key.seq) : t.getNewest crc32c live u = t₀.getNewest crc32c live u := by
  obtain ⟨hmem₀, hu₀, hmax₀⟩ := newestVersion_spec newest
  obtain ⟨d, hd, hkey⟩ := h.kept e₀ hmem₀ alive
  obtain ⟨e, he⟩ : ∃ e, newestVersion t.entries u = some e := by
    refine Option.ne_none_iff_exists'.mp fun hnone => ?_
    exact newestVersion_eq_none.mp hnone d hd (hkey ▸ hu₀)
  obtain ⟨hmem, hu, hmax⟩ := newestVersion_spec he
  -- What is found comes from the newest version, since sequence numbers are distinct.
  obtain ⟨e₁, hmem₁, hkey₁, hvalue⟩ := h.origin e hmem
  have hseq : e₁.key.seq = e₀.key.seq := by
    refine le_antisymm (hmax₀ e₁ hmem₁ (hkey₁ ▸ hu)) ?_
    rw [← hkey, ← hkey₁]
    exact hmax d hd (hkey ▸ hu₀)
  have hsame : e₁ = e₀ := by
    refine List.inj_on_of_nodup_map (List.pairwise_map.mpr distinct) ?_ ?_ hseq
    · exact mem_versionsOf.mpr ⟨hmem₁, hkey₁ ▸ hu⟩
    · exact mem_versionsOf.mpr ⟨hmem₀, hu₀⟩
  subst hsame
  by_cases htype : e₁.key.type = .kTypeValue
  · obtain ⟨v, hv⟩ := sound.readable e₁ hmem₁ htype
    rw [getNewest_of_value newest htype (sound.tags e₁ hmem₁) hv,
      getNewest_of_value he (hkey₁ ▸ htype) (hkey₁ ▸ sound.tags e₁ hmem₁) (hvalue htype v hv), hkey₁]
  · rw [getNewest_of_tombstone newest htype, getNewest_of_tombstone he (hkey₁ ▸ htype)]

/-- **Compactions under earlier bounds are not seen by reads.**  Whatever the tables and however the
versions of a key are distributed over them, reading the newest version that is left yields a value
exactly when reading the newest of all yields it, and otherwise both find nothing. -/
theorem getNewest_compactions (run : Relation.ReflTransGen (TableSet.Step crc32c live) t₀ t)
    (sound : t₀.Sound crc32c)
    (distinct : (versionsOf t₀.entries u).Pairwise fun e e' => e.key.seq ≠ e'.key.seq) :
    (∀ v, t.getNewest crc32c live u = .ok v ↔ t₀.getNewest crc32c live u = .ok v) ∧
      ((∀ v, t₀.getNewest crc32c live u ≠ .ok v) →
        Absent (t₀.getNewest crc32c live u) ∧ Absent (t.getNewest crc32c live u)) := by
  obtain ⟨hthinned, hsound⟩ := thinned_of_run run sound
  by_cases halive : ∃ e₀, newestVersion t₀.entries u = some e₀ ∧ live ≤ e₀.key.seq
  · obtain ⟨e₀, hnewest, halive⟩ := halive
    have hsame := getNewest_of_alive hthinned sound distinct hnewest halive
    refine ⟨fun v => by rw [hsame], fun hno => ?_⟩
    have habsent : t₀.getNewest crc32c live u = .fail .kNotFound := by
      by_cases htype : e₀.key.type = .kTypeValue
      · obtain ⟨hmem, -, -⟩ := newestVersion_spec hnewest
        obtain ⟨v, hv⟩ := sound.readable e₀ hmem htype
        refine absurd ?_ (hno v)
        rw [getNewest_of_value hnewest htype (sound.tags e₀ hmem) hv, if_neg (not_lt.mpr halive)]
      · exact getNewest_of_tombstone hnewest htype
    exact ⟨.inl habsent, .inl (hsame.trans habsent)⟩
  · -- All versions have expired, and so have those that are left.
    have hexpired₀ : ∀ e ∈ t₀.entries, e.key.userKey = u → e.key.seq < live := by
      intro e he hu
      cases hnewest : newestVersion t₀.entries u with
      | none => exact absurd hu (newestVersion_eq_none.mp hnewest e he)
      | some e₀ =>
          refine not_le.mp fun hle => halive ⟨e₀, hnewest, hle.trans ?_⟩
          exact (newestVersion_spec hnewest).2.2 e he hu
    have hexpired : ∀ e ∈ t.entries, e.key.userKey = u → e.key.seq < live := by
      intro e he hu
      obtain ⟨e₀, he₀, hkey, -⟩ := hthinned.origin e he
      exact hkey ▸ hexpired₀ e₀ he₀ (hkey ▸ hu)
    have habsent₀ := absent_of_expired sound hexpired₀
    have habsent := absent_of_expired hsound hexpired
    refine ⟨fun v => ⟨fun hv => ?_, fun hv => ?_⟩, fun _ => ⟨habsent₀, habsent⟩⟩
    · exact absurd hv (habsent.ne_ok v)
    · exact absurd hv (habsent₀.ne_ok v)

/-- A tombstone that has expired in one table and an older value in another: the tombstone is
dropped and the value stays. -/
theorem getNewest_compactions_tombstone :
    let value : Entry VLogEntryInfo := ⟨.ofWrite [1] 4 .kTypeValue, ⟨0, 0, 18⟩⟩
    let tombstone : Entry VLogEntryInfo := ⟨.ofWrite [1] 5 .kTypeDeletion, .zero⟩
    let other : Entry VLogEntryInfo := ⟨.ofWrite [2] 6 .kTypeDeletion, .zero⟩
    let vlogs : VLogDir := ⟨fun n => if n = 0 then some 0 else none,
      fun _ => recordBytes crc32cCastagnoli (.ofWrite [1] 4 .kTypeValue) [9], 1⟩
    let t₀ : TableSet := ⟨[[tombstone], [other], [value]], vlogs, 1⟩
    ∃ t, TableSet.Step crc32cCastagnoli 6 t₀ t ∧ value ∈ t.entries ∧
      (∀ e ∈ t.entries, e.key ≠ tombstone.key) ∧
      (∀ v, t.getNewest crc32cCastagnoli 6 [1] = .ok v ↔ t₀.getNewest crc32cCastagnoli 6 [1] = .ok v) ∧
      ((∀ v, t₀.getNewest crc32cCastagnoli 6 [1] ≠ .ok v) →
        Absent (t₀.getNewest crc32cCastagnoli 6 [1]) ∧ Absent (t.getNewest crc32cCastagnoli 6 [1])) := by
  intro value tombstone other vlogs t₀
  have hmem : ∀ e ∈ t₀.entries, e = tombstone ∨ e = other ∨ e = value := by
    intro e he
    simpa [TableSet.entries, t₀] using he
  have hresolves : Resolves crc32cCastagnoli vlogs value.value value.key [9] := by
    refine ⟨⟨⟨0, [], rfl, rfl, ?_⟩, by simp [recordLength, value], by decide⟩, by decide⟩
    rw [List.nil_append]
  have hsound : t₀.Sound crc32cCastagnoli := by
    refine ⟨⟨?_, ?_⟩, ?_, fun e he => ?_, fun e he htype => ?_⟩
    · intro n i h
      simp_all [t₀, vlogs]
    · intro m n i hm hn
      simp_all [t₀, vlogs]
    · intro n hn
      exact if_neg (Nat.one_le_iff_ne_zero.mp hn)
    · rcases hmem e he with rfl | rfl | rfl
      · decide
      · decide
      · decide
    · rcases hmem e he with rfl | rfl | rfl
      · exact absurd htype (by decide)
      · exact absurd htype (by decide)
      · exact ⟨[9], hresolves⟩
  have hreadable : ∀ e ∈ [[tombstone], [other]].flatten, 6 ≤ e.key.seq →
      Readable crc32cCastagnoli vlogs e := by
    refine fun e he _ => hsound.readable e ?_
    simp only [TableSet.entries, t₀, List.flatten_cons, List.mem_append] at he ⊢
    tauto
  -- the compaction of the first two tables leaves the third as it is
  obtain ⟨b, w, visited, hvisit, hok, hout, -, hwritten⟩ :=
    buildWhenCompaction_written crc32cCastagnoli false 6 7 (w := ⟨1, vlogs, .new⟩) (by simp)
      hsound.wellFormed hsound.fresh hreadable
  have hperm := visit_perm (by simp) hvisit
  have hfiles : (b.newFiles.map (·.entries)).flatten = b.written := by
    rw [Build.written, hout, List.append_nil, List.flatMap_def]
  have hstep : TableSet.Step crc32cCastagnoli 6 t₀
      ⟨b.newFiles.map (·.entries) ++ [[value]], w.vlogs, w.lastVlogFileNo⟩ :=
    .compact (.refl _) (List.cons_ne_nil _ _) le_rfl hok
  refine ⟨_, hstep, ?_, fun e he => ?_, getNewest_compactions (.single hstep) hsound ?_⟩
  · simp [TableSet.entries]
  · rw [TableSet.entries, List.flatten_append, List.mem_append, hfiles] at he
    rcases he with he | he
    -- what is written has a sequence number from 6 on
    · obtain ⟨e₀, he₀, hrewritten⟩ := exists_of_forall₂ hwritten he
      obtain ⟨hin, hlive⟩ := List.mem_filter.mp he₀
      intro hkey
      have hseq : e₀.key.seq = 5 := by
        rw [← hrewritten.key, hkey]
        exact InternalKey.seq_ofWrite _ _ _
      simp [hseq] at hlive
    · obtain rfl : e = value := by simpa using he
      decide
  · have hversions : versionsOf t₀.entries [1] = [tombstone, value] := rfl
    rw [hversions]
    simp [tombstone, value]

end Lsmkv
