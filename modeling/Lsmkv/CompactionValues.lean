import Lsmkv.MergeOrder

/-!
# The values of a compaction

A compaction keeps every entry that is not expired, with what it stands for: a value
entry keeps its value, whether its location is kept or the value is copied into a new
value log, and a tombstone stays a tombstone.

`VLogWork.Base` and `VLogWork.Ready` are the invariants of the value log side between and
inside output tables.  The loop keeps `Compacted`, which ties the entries written so far
to the visited entries they come from; `buildWhenCompaction_compacted` is its outcome.
-/

namespace Lsmkv

open ByteCode Files

variable {crc32c : Bytes → ℕ}

/-! ## The value log side -/

/-- The value logs between two output tables.  `d₀` and `start` are the directory and
the counter at the beginning of the compaction. -/
structure VLogWork.Base (d₀ : VLogDir) (start : ℕ) (w : VLogWork) : Prop where
  wf : w.vlogs.WellFormed
  fresh : ∀ n, w.lastVlogFileNo ≤ n → w.vlogs.inode n = none
  grows : ∀ n, d₀.Grows w.vlogs n
  start_le : start ≤ w.lastVlogFileNo
  names : ∀ n < start, w.vlogs.inode n = d₀.inode n
  next_le : d₀.next ≤ w.vlogs.next
  untouched : ∀ i < d₀.next, w.vlogs.data i = d₀.data i

/-- The value logs while an output table is open: its log is open too. -/
structure VLogWork.Ready (d₀ : VLogDir) (start : ℕ) (w : VLogWork) : Prop
    extends VLogWork.Base d₀ start w where
  isOpen : ∃ t, w.builder.IsOpen w.vlogs t
  start_le_fileNo : start ≤ w.builder.fileNo
  fileNo_lt : w.builder.fileNo < w.lastVlogFileNo
  next_le_inode : d₀.next ≤ w.builder.inode

variable {d₀ : VLogDir} {start : ℕ} {w : VLogWork}

/-- The beginning of a compaction. -/
theorem VLogWork.Base.init (wf : w.vlogs.WellFormed)
    (fresh : ∀ n, w.lastVlogFileNo ≤ n → w.vlogs.inode n = none) :
    w.Base w.vlogs w.lastVlogFileNo :=
  ⟨wf, fresh, fun n => Dir.Grows.refl _ n, le_rfl, fun _ _ => rfl, le_rfl, fun _ _ => rfl⟩

theorem VLogWork.Base.openNext (h : w.Base d₀ start) :
    w.openNext.Ready d₀ start ∧ w.openNext.builder.fileNo = w.lastVlogFileNo := by
  have hfresh := h.fresh w.lastVlogFileNo le_rfl
  have hsnd : w.openNext.vlogs = ⟨Function.update w.vlogs.inode w.lastVlogFileNo
      (some w.vlogs.next), Function.update w.vlogs.data w.vlogs.next [], w.vlogs.next + 1⟩ :=
    Dir.create_snd hfresh
  refine ⟨⟨⟨h.wf.create hfresh, fun n hn => ?_, fun n => ?_, ?_, fun n hn => ?_, ?_, fun i hi => ?_⟩,
    ⟨.new, ?_⟩, ?_, ?_, ?_⟩, rfl⟩
  · have hne : n ≠ w.lastVlogFileNo := by
      rintro rfl
      exact absurd hn (Nat.not_succ_le_self _)
    have := h.fresh n (Nat.le_of_succ_le hn)
    simpa [VLogWork.openNext, VLogBuilder.openFile, Dir.create_snd hfresh,
      Function.update_of_ne hne] using this
  · exact (h.grows n).trans (h.wf.grows_create hfresh n)
  · exact h.start_le.trans (Nat.le_succ _)
  · have hne : n ≠ w.lastVlogFileNo := (lt_of_lt_of_le hn h.start_le).ne
    rw [hsnd]
    simpa [Function.update_of_ne hne] using h.names n hn
  · rw [hsnd]
    exact h.next_le.trans (Nat.le_succ _)
  · have hne : i ≠ w.vlogs.next := (lt_of_lt_of_le hi h.next_le).ne
    rw [hsnd]
    simpa [Function.update_of_ne hne] using h.untouched i hi
  · exact VLogBuilder.isOpen_openFile hfresh
  · exact h.start_le
  · exact Nat.lt_succ_self _
  · have hinode : w.openNext.builder.inode = w.vlogs.next := Dir.create_fst hfresh
    rw [hinode]
    exact h.next_le

theorem VLogWork.Ready.close (h : w.Ready d₀ start) : (w.close crc32c).Base d₀ start := by
  obtain ⟨t, ht⟩ := h.isOpen
  have hdir : (w.close crc32c).vlogs = w.vlogs.write w.builder.inode (t.finish crc32c) := by
    simp [VLogWork.close, VLogBuilder.close, ht.builder]
  refine ⟨?_, ?_, fun n => (h.grows n).trans (ht.grows_close n), h.start_le, ?_, ?_, ?_⟩
  · rw [hdir]
    exact h.wf.write _ _
  · intro n hn
    rw [hdir]
    exact h.fresh n hn
  · intro n hn
    rw [hdir]
    exact h.names n hn
  · rw [hdir]
    exact h.next_le
  · intro i hi
    have hne : i ≠ w.builder.inode := (lt_of_lt_of_le hi h.next_le_inode).ne
    rw [hdir]
    simpa [Dir.write, Function.update_of_ne hne] using h.untouched i hi

/-- An entry written for a visited one: the same key, a tombstone for a tombstone, and
a location that resolves to whatever the visited one resolved to. -/
structure RewrittenTo (crc32c : Bytes → ℕ) (buildVlog : Bool) (d₀ d : VLogDir)
    (e' e : Entry VLogEntryInfo) : Prop where
  key : e'.key = e.key
  tombstone : e.key.type ≠ .kTypeValue → e'.value = .zero
  value : e.key.type = .kTypeValue → ∀ v, Resolves crc32c d₀ e.value e.key v →
    Resolves crc32c d e'.value e.key v
  kept : buildVlog = false → e.key.type = .kTypeValue → e'.value = e.value

theorem RewrittenTo.mono {buildVlog : Bool} {d d' : VLogDir} {e' e : Entry VLogEntryInfo}
    (h : RewrittenTo crc32c buildVlog d₀ d e' e) (grows : ∀ n, d.Grows d' n) :
    RewrittenTo crc32c buildVlog d₀ d' e' e :=
  ⟨h.key, h.tombstone, fun ht v hv => (h.value ht v hv).mono (grows _), h.kept⟩

/-- The values of the entries that are written can be read. -/
def Readable (crc32c : Bytes → ℕ) (d : VLogDir) (e : Entry VLogEntryInfo) : Prop :=
  e.key.type = .kTypeValue → ∃ v, Resolves crc32c d e.value e.key v

/-- What copying one entry does to the value logs. -/
theorem VLogWork.Ready.rewrite_ok (h : w.Ready d₀ start) {e : Entry VLogEntryInfo}
    {info : VLogEntryInfo} {w' : VLogWork} (ok : w.rewrite crc32c true e = .ok (info, w')) :
    w'.Ready d₀ start ∧ w'.builder.fileNo = w.builder.fileNo ∧
      w'.lastVlogFileNo = w.lastVlogFileNo ∧ (∀ n, w.vlogs.Grows w'.vlogs n) ∧
      (e.key.type = .kTypeValue → info.fileNo = w.builder.fileNo) := by
  by_cases htype : e.key.type = .kTypeValue
  · simp only [VLogWork.rewrite, htype, ne_eq, not_true_eq_false, if_false, if_true] at ok
    obtain ⟨data, -, ok⟩ := Outcome.bind_eq_ok.mp ok
    obtain ⟨⟨info₁, builder, vlogs⟩, happend, ok⟩ := Outcome.bind_eq_ok.mp ok
    simp only [Outcome.ok.injEq, Prod.mk.injEq] at ok
    obtain ⟨rfl, rfl⟩ := ok
    obtain ⟨t, ht⟩ := h.isOpen
    obtain ⟨info₂, b', d', t', happend', hopen, ⟨hfile, hbinode⟩, ⟨hinode, hnext, hdata⟩,
      hgrows, hinfo, -⟩ := ht.append crc32c e.key data
    obtain ⟨rfl, rfl, rfl⟩ : info₂ = info₁ ∧ b' = builder ∧ d' = vlogs := by
      simpa using Outcome.ok.inj (happend'.symm.trans happend)
    refine ⟨⟨⟨⟨?_, ?_⟩, ?_, ?_, ?_, ?_, ?_, ?_⟩, ⟨t', hopen⟩, ?_, ?_, ?_⟩, hfile, rfl, hgrows,
      fun _ => hinfo⟩
    · intro n i hi
      rw [hinode] at hi
      rw [hnext]
      exact h.wf.lt_next hi
    · intro m n i hm hn
      rw [hinode] at hm hn
      exact h.wf.injective hm hn
    · intro n hn
      rw [hinode]
      exact h.fresh n hn
    · exact fun n => (h.grows n).trans (hgrows n)
    · exact h.start_le
    · intro n hn
      rw [hinode]
      exact h.names n hn
    · rw [hnext]
      exact h.next_le
    · intro i hi
      rw [hdata i (lt_of_lt_of_le hi h.next_le_inode).ne]
      exact h.untouched i hi
    · exact hfile ▸ h.start_le_fileNo
    · exact hfile ▸ h.fileNo_lt
    · exact hbinode ▸ h.next_le_inode
  -- a tombstone is copied without a record
  · simp only [VLogWork.rewrite, htype, ne_eq, not_false_eq_true, if_true, Outcome.ok.injEq,
      Prod.mk.injEq] at ok
    obtain ⟨-, rfl⟩ := ok
    exact ⟨h, rfl, rfl, fun n => Dir.Grows.refl _ n, fun ht => absurd ht htype⟩

/-- Copying one entry that can be read succeeds, and what is written resolves to the same
value. -/
theorem VLogWork.Ready.rewrite (h : w.Ready d₀ start) {e : Entry VLogEntryInfo}
    (readable : Readable crc32c d₀ e) :
    ∃ info w', w.rewrite crc32c true e = .ok (info, w') ∧
      RewrittenTo crc32c true d₀ w'.vlogs ⟨e.key, info⟩ e := by
  by_cases htype : e.key.type = .kTypeValue
  · obtain ⟨v, hv⟩ := readable htype
    have hread : readVLog crc32c none w.vlogs e.value = .ok v :=
      readVLog_of_resolves (hv.mono (h.grows _))
    obtain ⟨t, ht⟩ := h.isOpen
    obtain ⟨info, builder, vlogs, t', happend, -, -, -, -, -, -, hrecorded⟩ :=
      ht.append crc32c e.key v
    refine ⟨info, { w with builder := builder, vlogs := vlogs }, ?_,
      ⟨rfl, fun hne => absurd htype hne, fun _ v' hv' => ?_, by simp⟩⟩
    · simp [VLogWork.rewrite, htype, hread, happend]
    · obtain rfl : v = v' := by
        have := readVLog_of_resolves (hv'.mono (h.grows _))
        rw [hread] at this
        exact Outcome.ok.inj this
      exact (hrecorded (hv.length_eq ▸ hv.fits)).resolves (hv.length_eq ▸ hv.readable)
  · refine ⟨.zero, w, ?_, ⟨rfl, fun _ => rfl, fun ht => absurd ht htype, by simp⟩⟩
    simp [VLogWork.rewrite, htype]

/-! ## The loop -/

/-- **The invariant of a compaction with value logs.**  `kept` are the visited entries
that were written.  Every finished table owns the value log it names, numbers ascending,
and the log that is open belongs to the open table. -/
structure Compacted (crc32c : Bytes → ℕ) (d₀ : VLogDir) (start : ℕ) (b : Build VLogEntryInfo)
    (w : VLogWork) (kept : List (Entry VLogEntryInfo)) : Prop where
  base : w.Base d₀ start
  ready : b.out ≠ [] → w.Ready d₀ start
  written : List.Forall₂ (RewrittenTo crc32c true d₀ w.vlogs) b.written kept
  out_owned : ∀ e ∈ b.out, e.key.type = .kTypeValue → e.value.fileNo = w.builder.fileNo
  owned : ∀ f ∈ b.newFiles, start ≤ f.vlogFileNo ∧ f.vlogFileNo < w.lastVlogFileNo ∧
    ∀ e ∈ f.entries, e.key.type = .kTypeValue → e.value.fileNo = f.vlogFileNo
  ascending : b.newFiles.Pairwise fun f g => f.vlogFileNo < g.vlogFileNo
  below : b.out ≠ [] → ∀ f ∈ b.newFiles, f.vlogFileNo < w.builder.fileNo

variable {b : Build VLogEntryInfo} {kept : List (Entry VLogEntryInfo)}

/-- The part of the invariant that is about the owners of value logs; a loop that succeeds
keeps it whatever it reads. -/
structure Owning (d₀ : VLogDir) (start : ℕ) (b : Build VLogEntryInfo) (w : VLogWork) : Prop where
  base : w.Base d₀ start
  ready : b.out ≠ [] → w.Ready d₀ start
  out_owned : ∀ e ∈ b.out, e.key.type = .kTypeValue → e.value.fileNo = w.builder.fileNo
  owned : ∀ f ∈ b.newFiles, start ≤ f.vlogFileNo ∧ f.vlogFileNo < w.lastVlogFileNo ∧
    ∀ e ∈ f.entries, e.key.type = .kTypeValue → e.value.fileNo = f.vlogFileNo
  ascending : b.newFiles.Pairwise fun f g => f.vlogFileNo < g.vlogFileNo
  below : b.out ≠ [] → ∀ f ∈ b.newFiles, f.vlogFileNo < w.builder.fileNo

theorem Compacted.owning (h : Compacted crc32c d₀ start b w kept) : Owning d₀ start b w :=
  ⟨h.base, h.ready, h.out_owned, h.owned, h.ascending, h.below⟩

theorem Owning.compacted (h : Owning d₀ start b w)
    (written : List.Forall₂ (RewrittenTo crc32c true d₀ w.vlogs) b.written kept) :
    Compacted crc32c d₀ start b w kept :=
  ⟨h.base, h.ready, written, h.out_owned, h.owned, h.ascending, h.below⟩

namespace Owning

/-- The first key of a table is recorded. -/
theorem see (h : Owning d₀ start b w) (key : InternalKey) : Owning d₀ start (b.see key) w :=
  ⟨h.base, h.ready, h.out_owned, h.owned, h.ascending, h.below⟩

/-- Before an entry is written, the value log of its table is open. -/
theorem opened (h : Owning d₀ start b w) :
    let w' := if b.out.isEmpty && true then w.openNext else w
    Owning d₀ start b w' ∧ w'.Ready d₀ start ∧ (∀ n, w.vlogs.Grows w'.vlogs n) ∧
      ∀ f ∈ b.newFiles, f.vlogFileNo < w'.builder.fileNo := by
  by_cases hout : b.out = []
  · obtain ⟨hready, hfile⟩ := h.base.openNext
    have hgrows : ∀ n, w.vlogs.Grows w.openNext.vlogs n :=
      fun n => h.base.wf.grows_create (h.base.fresh _ le_rfl) n
    have hbelow : ∀ f ∈ b.newFiles, f.vlogFileNo < w.openNext.builder.fileNo := by
      intro f hf
      rw [hfile]
      exact (h.owned f hf).2.1
    simp only [hout, List.isEmpty_nil, Bool.and_true, if_true]
    refine ⟨⟨hready.toBase, fun _ => hready, by simp [hout], fun f hf => ?_, h.ascending,
      fun _ => hbelow⟩, hready, hgrows, hbelow⟩
    obtain ⟨hle, hlt, hentries⟩ := h.owned f hf
    exact ⟨hle, hlt.trans (Nat.lt_succ_self _), hentries⟩
  · simp only [List.isEmpty_iff, hout, Bool.and_true, if_false]
    exact ⟨h, h.ready hout, fun n => Dir.Grows.refl _ n, h.below hout⟩

/-- Writing an entry behind the open table, before the cut. -/
theorem push (h : Owning d₀ start b w)
    (hbelow : ∀ f ∈ b.newFiles, f.vlogFileNo < w.builder.fileNo) {w' : VLogWork}
    (ready : w'.Ready d₀ start) (fileNo : w'.builder.fileNo = w.builder.fileNo)
    (last : w'.lastVlogFileNo = w.lastVlogFileNo) {e : Entry VLogEntryInfo} {info : VLogEntryInfo}
    (owned : e.key.type = .kTypeValue → info.fileNo = w.builder.fileNo) :
    Owning d₀ start { b with out := b.out ++ [⟨e.key, info⟩] } w' := by
  refine ⟨ready.toBase, fun _ => ready, ?_, ?_, h.ascending, fun _ f hf => ?_⟩
  · intro d hd htype
    rw [fileNo]
    rcases List.mem_append.mp hd with hd | hd
    · exact h.out_owned d hd htype
    · rw [List.mem_singleton.mp hd] at htype ⊢
      exact owned htype
  · intro f hf
    rw [last]
    exact h.owned f hf
  · rw [fileNo]
    exact hbelow f hf

/-- Finishing the open table gives it the open value log. -/
theorem close (h : Owning d₀ start b w) (crc32c : Bytes → ℕ) (ne : b.out ≠ []) (key : InternalKey) :
    Owning d₀ start (b.close w.builder.fileNo key) (w.close crc32c) := by
  have hready := h.ready ne
  refine ⟨hready.close, fun hne => absurd rfl hne, by simp [Build.close], ?_, ?_,
    fun hne => absurd rfl hne⟩
  · intro f hf
    rcases List.mem_append.mp hf with hf | hf
    · exact h.owned f hf
    · rw [List.mem_singleton.mp hf]
      exact ⟨hready.start_le_fileNo, hready.fileNo_lt, h.out_owned⟩
  · refine List.pairwise_append.mpr ⟨h.ascending, List.pairwise_singleton _ _, ?_⟩
    intro f hf g hg
    rw [List.mem_singleton.mp hg]
    exact h.below ne f hf

/-- One round of the loop, if it succeeds. -/
theorem step (h : Owning d₀ start b w) {live : ℕ} {e : Entry VLogEntryInfo}
    {b' : Build VLogEntryInfo} {w' : VLogWork}
    (ok : buildStep crc32c true live b w e = .ok (b', w')) : Owning d₀ start b' w' := by
  by_cases hexp : e.key.seq < live
  · simp only [buildStep, if_pos hexp, Outcome.ok.injEq, Prod.mk.injEq] at ok
    obtain ⟨rfl, rfl⟩ := ok
    exact h.see e.key
  · obtain ⟨hopen, hready, -, hbelow⟩ := (h.see e.key).opened
    simp only [buildStep, if_neg hexp, if_true] at ok
    obtain ⟨⟨info, w₂⟩, hrewrite, ok⟩ := Outcome.bind_eq_ok.mp ok
    obtain ⟨hready', hfile, hlast, -, hinfo⟩ := hready.rewrite_ok hrewrite
    have hpush := hopen.push hbelow hready' hfile hlast hinfo
    simp only [Outcome.ok.injEq, Prod.mk.injEq] at ok
    obtain ⟨rfl, rfl⟩ := ok
    simp only [Build.add]
    by_cases hcut : sstFileSize ≤ approximateSize ((b.see e.key).out ++ [⟨e.key, info⟩])
    · simp only [if_pos hcut]
      simpa [Build.close] using hpush.close crc32c (by simp) e.key
    · simp only [if_neg hcut]
      simpa using hpush

theorem loop {live : ℕ} {es : List (Entry VLogEntryInfo)} {b' : Build VLogEntryInfo} {w' : VLogWork}
    (h : Owning d₀ start b w) (ok : buildLoop crc32c true live es b w = .ok (b', w')) :
    Owning d₀ start b' w' := by
  induction es generalizing b w with
  | nil =>
      simp only [buildLoop, Outcome.ok.injEq, Prod.mk.injEq] at ok
      obtain ⟨rfl, rfl⟩ := ok
      exact h
  | cons e es ih =>
      rw [buildLoop] at ok
      obtain ⟨⟨b₁, w₁⟩, hstep, hrest⟩ := Outcome.bind_eq_ok.mp ok
      exact ih (h.step hstep) hrest

/-- What follows the loop. -/
theorem finish (h : Owning d₀ start b w) (crc32c : Bytes → ℕ) {last : Option InternalKey}
    (ne : b.out ≠ [] → last ≠ none) :
    Owning d₀ start (b.finish w.builder.fileNo last)
      (if !b.out.isEmpty && true then w.close crc32c else w) := by
  by_cases hout : b.out = []
  · have hsame : b.finish w.builder.fileNo last = b := by
      cases last with
      | none => rfl
      | some key => simp [Build.finish, hout]
    simpa [hsame, hout] using h
  · obtain ⟨key, rfl⟩ := Option.ne_none_iff_exists'.mp (ne hout)
    simpa [Build.finish, hout] using h.close crc32c hout key

end Owning

/-- Closing the value log of a table lets every file grow. -/
theorem VLogWork.Ready.grows_close (h : w.Ready d₀ start) (crc32c : Bytes → ℕ) (closes : Bool) (n : ℕ) :
    w.vlogs.Grows (if closes then w.close crc32c else w).vlogs n := by
  cases closes with
  | false => exact Dir.Grows.refl _ n
  | true =>
      obtain ⟨t, ht⟩ := h.isOpen
      exact ht.grows_close n

/-- One round of the loop succeeds and keeps the invariant. -/
theorem Compacted.step (h : Compacted crc32c d₀ start b w kept) {live : ℕ}
    {e : Entry VLogEntryInfo} (readable : live ≤ e.key.seq → Readable crc32c d₀ e) :
    ∃ b' w', buildStep crc32c true live b w e = .ok (b', w') ∧
      Compacted crc32c d₀ start b' w' (kept ++ [e].filter fun e => decide (live ≤ e.key.seq)) := by
  by_cases hexp : e.key.seq < live
  · refine ⟨b.see e.key, w, if_pos hexp, ?_⟩
    simpa [not_le.mpr hexp] using (h.owning.see e.key).compacted h.written
  · obtain ⟨-, hready, hgrows₁, -⟩ := (h.owning.see e.key).opened
    obtain ⟨info, w₂, hrewrite, hrewritten⟩ := hready.rewrite (readable (not_lt.mp hexp))
    obtain ⟨hready', -, -, hgrows₂, -⟩ := hready.rewrite_ok hrewrite
    have hlive : [e].filter (fun e => decide (live ≤ e.key.seq)) = [e] := by
      simp [not_lt.mp hexp]
    obtain ⟨b', closes, hok, hb'⟩ : ∃ b' closes, buildStep crc32c true live b w e
        = .ok (b', if (closes : Bool) then w₂.close crc32c else w₂) ∧
          b'.written = b.written ++ [⟨e.key, info⟩] := by
      refine ⟨_, ((b.see e.key).add w₂.builder.fileNo ⟨e.key, info⟩).out.isEmpty && true, ?_,
        Build.written_add (b.see e.key) w₂.builder.fileNo ⟨e.key, info⟩⟩
      simp only [buildStep, if_neg hexp, hrewrite, Outcome.ok_bind, if_true]
    have hgrows := hready'.grows_close crc32c closes
    refine ⟨_, _, hok, (h.owning.step hok).compacted ?_⟩
    rw [hb', hlive]
    refine List.rel_append (h.written.imp fun _ _ hr => hr.mono fun n => ?_)
      (List.Forall₂.cons (hrewritten.mono hgrows) List.Forall₂.nil)
    exact (hgrows₁ n).trans ((hgrows₂ n).trans (hgrows n))

/-- The loop succeeds and keeps the invariant. -/
theorem Compacted.loop {live : ℕ} {es : List (Entry VLogEntryInfo)}
    (readable : ∀ e ∈ es, live ≤ e.key.seq → Readable crc32c d₀ e)
    (h : Compacted crc32c d₀ start b w kept) :
    ∃ b' w', buildLoop crc32c true live es b w = .ok (b', w') ∧
      Compacted crc32c d₀ start b' w' (kept ++ es.filter fun e => decide (live ≤ e.key.seq)) := by
  induction es generalizing b w kept with
  | nil => exact ⟨b, w, rfl, by simpa using h⟩
  | cons e es ih =>
      obtain ⟨b₁, w₁, hstep, h₁⟩ := h.step (readable e List.mem_cons_self)
      obtain ⟨b', w', hloop, h'⟩ := ih (fun d hd => readable d (List.mem_cons_of_mem _ hd)) h₁
      refine ⟨b', w', ?_, ?_⟩
      · rw [buildLoop, hstep]
        exact hloop
      · rwa [List.append_assoc, ← List.filter_append] at h'

/-! ## Keeping the locations -/

/-- The invariant of a compaction that keeps the locations. -/
structure Carried (crc32c : Bytes → ℕ) (d : VLogDir) (b : Build VLogEntryInfo)
    (kept : List (Entry VLogEntryInfo)) : Prop where
  written : List.Forall₂ (RewrittenTo crc32c false d d) b.written kept
  noVlog : ∀ f ∈ b.newFiles, f.vlogFileNo = 0

theorem Carried.close (h : Carried crc32c d₀ b kept) (key : InternalKey) :
    Carried crc32c d₀ (b.close 0 key) kept := by
  refine ⟨?_, fun f hf => ?_⟩
  · have hwritten : (b.close 0 key).written = b.written := by
      simp [Build.written, Build.close]
    rw [hwritten]
    exact h.written
  · rcases List.mem_append.mp hf with hf | hf
    · exact h.noVlog f hf
    · rw [List.mem_singleton.mp hf]

/-- The value an entry is written with when locations are kept. -/
def keptValue (e : Entry VLogEntryInfo) : VLogEntryInfo :=
  if e.key.type = .kTypeValue then e.value else .zero

theorem rewrittenTo_keptValue (e : Entry VLogEntryInfo) :
    RewrittenTo crc32c false d₀ d₀ ⟨e.key, keptValue e⟩ e where
  key := rfl
  tombstone ht := if_neg ht
  value ht v hv := by simpa [keptValue, ht] using hv
  kept _ ht := if_pos ht

theorem buildStep_false (live : ℕ) (b : Build VLogEntryInfo) (w : VLogWork)
    (e : Entry VLogEntryInfo) :
    buildStep crc32c false live b w e =
      .ok (if e.key.seq < live then b.see e.key else (b.see e.key).add 0 ⟨e.key, keptValue e⟩, w) := by
  by_cases hexp : e.key.seq < live
  · simp [buildStep, hexp]
  · by_cases htype : e.key.type = .kTypeValue
    · simp [buildStep, hexp, VLogWork.rewrite, htype, keptValue]
    · simp [buildStep, hexp, VLogWork.rewrite, htype, keptValue]

theorem Carried.step (h : Carried crc32c d₀ b kept) (live : ℕ) (e : Entry VLogEntryInfo) :
    Carried crc32c d₀
      (if e.key.seq < live then b.see e.key else (b.see e.key).add 0 ⟨e.key, keptValue e⟩)
      (kept ++ [e].filter fun e => decide (live ≤ e.key.seq)) := by
  by_cases hexp : e.key.seq < live
  · simpa [hexp, not_le.mpr hexp] using ⟨h.written, h.noVlog⟩
  · have hlive : [e].filter (fun e => decide (live ≤ e.key.seq)) = [e] := by
      simp [not_lt.mp hexp]
    rw [if_neg hexp, hlive]
    have hpush : Carried crc32c d₀
        { b.see e.key with out := (b.see e.key).out ++ [⟨e.key, keptValue e⟩] } (kept ++ [e]) := by
      refine ⟨?_, h.noVlog⟩
      have happend : Build.written
          { b.see e.key with out := (b.see e.key).out ++ [⟨e.key, keptValue e⟩] }
          = b.written ++ [⟨e.key, keptValue e⟩] := by
        simp [Build.written, Build.see]
      rw [happend]
      exact List.rel_append h.written (List.Forall₂.cons (rewrittenTo_keptValue e) List.Forall₂.nil)
    simp only [Build.add]
    split
    · exact hpush.close e.key
    · exact hpush

theorem Carried.loop (h : Carried crc32c d₀ b kept) (live : ℕ) (es : List (Entry VLogEntryInfo))
    (w : VLogWork) :
    ∃ b', buildLoop crc32c false live es b w = .ok (b', w) ∧
      Carried crc32c d₀ b' (kept ++ es.filter fun e => decide (live ≤ e.key.seq)) := by
  induction es generalizing b kept with
  | nil => exact ⟨b, rfl, by simpa using h⟩
  | cons e es ih =>
      obtain ⟨b', hloop, h'⟩ := ih (h.step live e)
      refine ⟨b', ?_, ?_⟩
      · rw [buildLoop, buildStep_false]
        exact hloop
      · rwa [List.append_assoc, ← List.filter_append] at h'

/-! ## The whole compaction -/

section Whole

variable {live fileno : ℕ} {inputs : List (List (Entry VLogEntryInfo))}

/-- A loop that leaves a table open has visited an entry. -/
theorem getLast_ne_none_of_buildLoop {es : List (Entry VLogEntryInfo)} {b : Build VLogEntryInfo}
    {w' : VLogWork} (ok : buildLoop crc32c true live es (.start fileno) w = .ok (b, w'))
    (ne : b.out ≠ []) : es.getLast?.map (·.key) ≠ none := by
  rintro hnone
  obtain rfl : es = [] := by simpa using hnone
  simp only [buildLoop, Outcome.ok.injEq, Prod.mk.injEq] at ok
  rw [← ok.1] at ne
  exact ne rfl

/-- **The owners of value logs after a compaction**, whatever it read. -/
theorem buildWhenCompaction_owning {b : Build VLogEntryInfo} {w' : VLogWork}
    (base : w.Base w.vlogs w.lastVlogFileNo)
    (ok : buildWhenCompaction crc32c true live fileno w inputs = .ok (b, w')) :
    b.out = [] ∧ Owning w.vlogs w.lastVlogFileNo b w' := by
  have hstart : Owning w.vlogs w.lastVlogFileNo (.start fileno) w :=
    ⟨base, fun hne => absurd rfl hne, by simp [Build.start], by simp [Build.start],
      List.Pairwise.nil, by simp [Build.start]⟩
  obtain ⟨visited, -, ok⟩ := Outcome.bind_eq_ok.mp ok
  obtain ⟨⟨b₁, w₁⟩, hloop, ok⟩ := Outcome.bind_eq_ok.mp ok
  simp only [if_true, Outcome.ok.injEq, Prod.mk.injEq] at ok
  obtain ⟨rfl, rfl⟩ := ok
  refine ⟨?_, (hstart.loop hloop).finish crc32c (getLast_ne_none_of_buildLoop hloop)⟩
  cases hlast : visited.getLast?.map (·.key) with
  | none =>
      by_contra hne
      exact getLast_ne_none_of_buildLoop hloop hne hlast
  | some key => exact Build.out_finish _ _ _

variable (crc32c fileno) in
/-- A compaction with value logs succeeds, and its output is `Compacted`. -/
theorem buildWhenCompaction_compacted (two : 2 ≤ inputs.length)
    (base : w.Base w.vlogs w.lastVlogFileNo)
    (readable : ∀ e ∈ inputs.flatten, live ≤ e.key.seq → Readable crc32c w.vlogs e) :
    ∃ b w' visited, LoserTree.visit (fun e => e.key.encode) inputs = some visited ∧
      buildWhenCompaction crc32c true live fileno w inputs = .ok (b, w') ∧ b.out = [] ∧
      Compacted crc32c w.vlogs w.lastVlogFileNo b w'
        (visited.filter fun e => decide (live ≤ e.key.seq)) := by
  obtain ⟨visited, hvisit, -⟩ :=
    visit_headMerge (fun e : Entry VLogEntryInfo => e.key.encode) two
  have hperm := visit_perm two hvisit
  have hstart : Compacted crc32c w.vlogs w.lastVlogFileNo (.start fileno) w [] :=
    ⟨base, fun hne => absurd rfl hne, List.Forall₂.nil, by simp [Build.start],
      by simp [Build.start], List.Pairwise.nil, by simp [Build.start]⟩
  obtain ⟨b, w', hloop, h⟩ := hstart.loop
    (fun e he => readable e (hperm.mem_iff.mp he))
  rw [List.nil_append] at h
  have hok : buildWhenCompaction crc32c true live fileno w inputs
      = .ok (b.finish w'.builder.fileNo (visited.getLast?.map (·.key)),
        if !b.out.isEmpty && true then w'.close crc32c else w') := by
    simp only [buildWhenCompaction, hvisit, Outcome.ofOption_some, Outcome.ok_bind, hloop, if_true]
  obtain ⟨hout, howning⟩ := buildWhenCompaction_owning base hok
  refine ⟨_, _, visited, hvisit, hok, hout, howning.compacted ?_⟩
  rw [Build.written_finish]
  refine h.written.imp fun _ _ hr => hr.mono fun n => ?_
  by_cases hopen : b.out = []
  · simpa [hopen] using Dir.Grows.refl _ n
  · simpa [hopen] using (h.ready hopen).grows_close crc32c true n

variable (crc32c live fileno w) in
/-- A compaction that keeps the locations succeeds and leaves the value logs alone. -/
theorem buildWhenCompaction_carried (two : 2 ≤ inputs.length) :
    ∃ b visited, LoserTree.visit (fun e => e.key.encode) inputs = some visited ∧
      buildWhenCompaction crc32c false live fileno w inputs = .ok (b, w) ∧ b.out = [] ∧
      Carried crc32c w.vlogs b (visited.filter fun e => decide (live ≤ e.key.seq)) := by
  obtain ⟨visited, hvisit, -⟩ :=
    visit_headMerge (fun e : Entry VLogEntryInfo => e.key.encode) two
  have hstart : Carried crc32c w.vlogs (.start fileno) [] :=
    ⟨List.Forall₂.nil, by simp [Build.start]⟩
  obtain ⟨b, hloop, h⟩ := hstart.loop live visited w
  rw [List.nil_append] at h
  rw [buildWhenCompaction, hvisit]
  simp only [Outcome.ofOption_some, Outcome.ok_bind, hloop, Bool.and_false, Bool.false_eq_true,
    if_false]
  refine ⟨_, visited, rfl, rfl, ?_⟩
  cases hlast : visited.getLast? with
  | none =>
      rw [List.getLast?_eq_none_iff] at hlast
      subst hlast
      simp only [buildLoop, Outcome.ok.injEq, Prod.mk.injEq] at hloop
      rw [← hloop.1] at h ⊢
      exact ⟨rfl, by simpa [Build.start, Build.finish] using h⟩
  | some e =>
      by_cases hout : b.out = []
      · simpa [Build.finish, hout] using h
      · refine ⟨Build.out_finish _ _ _, ?_⟩
        simpa [Build.finish, hout] using h.close e.key

end Whole

theorem exists_of_forall₂ {α β : Type} {R : α → β → Prop} {xs : List α} {ys : List β}
    (h : List.Forall₂ R xs ys) {x : α} (hx : x ∈ xs) : ∃ y ∈ ys, R x y := by
  induction h with
  | nil => simp at hx
  | cons hhead _ ih =>
      rcases List.mem_cons.mp hx with rfl | hx
      · exact ⟨_, List.mem_cons_self, hhead⟩
      · obtain ⟨y, hy, hr⟩ := ih hx
        exact ⟨y, List.mem_cons_of_mem _ hy, hr⟩

/-! ## What the output stands for -/

/-- What an entry stands for. -/
inductive Payload
  | deleted
  | value (bytes : Bytes)
  deriving DecidableEq, Repr

/-- The payload of an entry: a tombstone is deleted, a value is what its location
resolves to through `VLogReader::Read`. -/
def payload (crc32c : Bytes → ℕ) (d : VLogDir) (e : Entry VLogEntryInfo) : Outcome Payload :=
  if e.key.type = .kTypeValue then do
    let bytes ← readVLog crc32c none d e.value
    .ok (.value bytes)
  else .ok .deleted

/-- Keys and payloads of entries, as a multiset. -/
def payloads (crc32c : Bytes → ℕ) (d : VLogDir) (es : List (Entry VLogEntryInfo)) :
    Multiset (InternalKey × Outcome Payload) :=
  Multiset.ofList (es.map fun e => (e.key, payload crc32c d e))

theorem RewrittenTo.payload_eq {buildVlog : Bool} {d : VLogDir} {e' e : Entry VLogEntryInfo}
    (h : RewrittenTo crc32c buildVlog d₀ d e' e) (readable : Readable crc32c d₀ e) :
    payload crc32c d e' = payload crc32c d₀ e := by
  by_cases htype : e.key.type = .kTypeValue
  · obtain ⟨v, hv⟩ := readable htype
    simp only [payload, h.key, htype, if_true, readVLog_of_resolves hv,
      readVLog_of_resolves (h.value htype v hv)]
  · simp only [payload, h.key, htype, if_false]

/-- Entries written one by one for others have the same keys and payloads. -/
theorem map_payload_eq {buildVlog : Bool} {d : VLogDir} {es' es : List (Entry VLogEntryInfo)}
    (h : List.Forall₂ (RewrittenTo crc32c buildVlog d₀ d) es' es)
    (readable : ∀ e ∈ es, Readable crc32c d₀ e) :
    es'.map (fun e => (e.key, payload crc32c d e))
      = es.map fun e => (e.key, payload crc32c d₀ e) := by
  induction h with
  | nil => rfl
  | @cons e' e es' es hhead htail ih =>
      rw [List.map_cons, List.map_cons, hhead.key, hhead.payload_eq (readable e List.mem_cons_self),
        ih fun d hd => readable d (List.mem_cons_of_mem _ hd)]

/-- A compaction writes an entry for each visited one that is not expired, with its value. -/
theorem buildWhenCompaction_written (crc32c : Bytes → ℕ) (buildVlog : Bool) (live fileno : ℕ)
    {w : VLogWork} {inputs : List (List (Entry VLogEntryInfo))} (two : 2 ≤ inputs.length)
    (wf : w.vlogs.WellFormed) (fresh : ∀ n, w.lastVlogFileNo ≤ n → w.vlogs.inode n = none)
    (readable : ∀ e ∈ inputs.flatten, live ≤ e.key.seq → Readable crc32c w.vlogs e) :
    ∃ b w' visited, LoserTree.visit (fun e => e.key.encode) inputs = some visited ∧
      buildWhenCompaction crc32c buildVlog live fileno w inputs = .ok (b, w') ∧ b.out = [] ∧
      w'.Base w.vlogs w.lastVlogFileNo ∧
      List.Forall₂ (RewrittenTo crc32c buildVlog w.vlogs w'.vlogs) b.written
        (visited.filter fun e => decide (live ≤ e.key.seq)) := by
  have hbase : w.Base w.vlogs w.lastVlogFileNo := .init wf fresh
  cases buildVlog with
  | false =>
      obtain ⟨b, visited, hvisit, hok, hout, h⟩ :=
        buildWhenCompaction_carried crc32c w live fileno two
      exact ⟨b, w, visited, hvisit, hok, hout, hbase, h.written⟩
  | true =>
      obtain ⟨b, w', visited, hvisit, hok, hout, h⟩ :=
        buildWhenCompaction_compacted crc32c fileno two hbase readable
      exact ⟨b, w', visited, hvisit, hok, hout, h.base, h.written⟩

/-- **A compaction neither loses, duplicates nor changes an entry.**  The output tables
hold, as a multiset of keys and payloads, exactly the input entries that are not expired.
The counter of value log files is above every file that exists, and every value that is
written resolves. -/
theorem buildWhenCompaction_payloads (crc32c : Bytes → ℕ) (buildVlog : Bool) (live fileno : ℕ)
    {w : VLogWork} {inputs : List (List (Entry VLogEntryInfo))} (two : 2 ≤ inputs.length)
    (wf : w.vlogs.WellFormed) (fresh : ∀ n, w.lastVlogFileNo ≤ n → w.vlogs.inode n = none)
    (readable : ∀ e ∈ inputs.flatten, live ≤ e.key.seq → e.key.type = .kTypeValue →
      ∃ v, Resolves crc32c w.vlogs e.value e.key v) :
    ∃ b w', buildWhenCompaction crc32c buildVlog live fileno w inputs = .ok (b, w') ∧
      b.out = [] ∧
      payloads crc32c w'.vlogs (b.newFiles.flatMap (·.entries))
        = payloads crc32c w.vlogs (inputs.flatten.filter fun e => decide (live ≤ e.key.seq)) := by
  obtain ⟨b, w', visited, hvisit, hok, hout, -, hwritten⟩ :=
    buildWhenCompaction_written crc32c buildVlog live fileno two wf fresh readable
  have hperm := visit_perm two hvisit
  have hfiles : b.written = b.newFiles.flatMap (·.entries) := by
    rw [Build.written, hout, List.append_nil]
  refine ⟨b, w', hok, hout, ?_⟩
  rw [← hfiles, payloads, map_payload_eq hwritten, payloads, Multiset.coe_eq_coe]
  · exact (hperm.filter _).map _
  · intro e he
    obtain ⟨hmem, hlive⟩ := List.mem_filter.mp he
    exact readable e (hperm.mem_iff.mp hmem) (by simpa using hlive)

end Lsmkv
