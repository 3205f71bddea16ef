import HomeCloud.Contract

/-!
# What the statements leave as it is

A lock disturbs no other thread and keeps the invariant, nor do the end of a transaction and writes
that respect the locks.

* **`World.rely_takeFence`**, `World.rely_release`, `World.rely_disconnect`: locks come and go.
* **`World.keeps_write`**, **`World.persists_write`**, **`World.rely_write`**: respectful writes
  disturb nobody.
* `DiskInv.write`, **`Inv.write`**: what they keep.
-/

namespace HomeCloud

open Concurrent

/-! ## Other threads -/

namespace World

variable {w : World} {t t' : ℕ}

@[simp]
theorem lock_db (k : LockKey) : (w.lock k t).db = w.db := by
  unfold lock
  split_ifs <;> rfl

@[simp]
theorem lock_seen (k : LockKey) : (w.lock k t).seen = w.seen := by
  unfold lock
  split_ifs <;> rfl

@[simp]
theorem lock_window (k : LockKey) : (w.lock k t).window = w.window := by
  unfold lock
  split_ifs <;> rfl

@[simp]
theorem lock_sweeping (k : LockKey) : (w.lock k t).sweeping = w.sweeping := by
  unfold lock
  split_ifs <;> rfl

@[simp]
theorem lock_signOuts (k : LockKey) : (w.lock k t).signOuts = w.signOuts := by
  unfold lock
  split_ifs <;> rfl

@[simp]
theorem lock_admitted (k : LockKey) : (w.lock k t).admitted = w.admitted := by
  unfold lock
  split_ifs <;> rfl

@[simp]
theorem lock_lost (k : LockKey) : (w.lock k t).lost = w.lost := by
  unfold lock
  split_ifs <;> rfl

@[simp]
theorem lock_reserved (k : LockKey) : (w.lock k t).reserved = w.reserved := by
  unfold lock
  split_ifs <;> rfl

theorem lock_locks_of_present {k : LockKey} (h : (w.db.row k).isSome) :
    (w.lock k t).locks k = some t := by
  simp [lock, h]

theorem lock_locks_of_free {k k' : LockKey} (hk : w.locks k = none) (h : w.locks k' = some t') :
    (w.lock k t).locks k' = some t' := by
  unfold lock
  split_ifs
  · show (if k' = k then some t else w.locks k') = some t'
    have hne : k' ≠ k := by
      rintro rfl
      rw [hk] at h
      cases h
    rw [if_neg hne, h]
  · exact h

theorem release_locks_of_ne (hne : t' ≠ t) {k : LockKey} (h : w.locks k = some t') :
    (w.release t).locks k = some t' := by
  simp only [release, h]
  rw [if_neg fun h' => hne (Option.some.inj h')]

theorem release_window_of_ne (hne : t' ≠ t) : (w.release t).window t' = w.window t' := if_neg hne

theorem lock_sameFiles (k : LockKey) : SameFiles w (w.lock k t) := by
  unfold lock
  split_ifs <;> exact ⟨le_rfl, rfl, rfl, rfl, rfl, rfl⟩

@[simp]
theorem lock_checked (k : LockKey) : (w.lock k t).checked = w.checked := by
  unfold lock
  split_ifs <;> rfl

theorem takeFence_eq (s : ℕ) (b : Bool) :
    ∃ fences, w.takeFence s b t = { w with fences := fences } := by
  unfold takeFence
  split_ifs
  · exact ⟨_, rfl⟩
  · exact ⟨_, rfl⟩
  · exact ⟨w.fences, rfl⟩

/-- What taking an advisory lock does to another session, and to this one. -/
theorem takeFence_fences (s : ℕ) (b : Bool) (s' : ℕ) :
    (w.takeFence s b t).fences s' = w.fences s' ∨ w.fenceFree s b t = true ∧ s' = s ∧
      (w.takeFence s b t).fences s' =
        if b then { w.fences s with exclusive := some t, attempt := none }
        else { w.fences s with shared := t :: (w.fences s).shared } := by
  unfold takeFence
  split_ifs with hf hb hb
  · by_cases hs : s' = s
    · exact .inr ⟨hf, hs, if_pos hs |>.trans (by rw [hs])⟩
    · exact .inl (if_neg hs)
  · by_cases hs : s' = s
    · exact .inr ⟨hf, hs, if_pos hs |>.trans (by rw [hs])⟩
    · exact .inl (if_neg hs)
  · exact .inl rfl
  · exact .inl rfl

/-- Taking a free lock disturbs nobody. -/
theorem rely_lock {k : LockKey} (hk : w.locks k = none) : Rely t' w (w.lock k t) :=
  .of_db_eq (lock_db k) (lock_seen k) (fun _ h => lock_locks_of_free hk h) (by rw [lock_window])
    (by rw [lock_sweeping]) (fun _ h => by rwa [lock_reserved] at h) (lock_sameFiles k)
    (by rw [lock_checked]) (by rw [lock_lost]; exact fun h => h)

/-- Checking a link changes nothing that a thread relies on, but for what it has checked. -/
theorem follows_check {expires : ℕ} : Follows t' w (w.check expires t) :=
  .of_db_eq rfl rfl (fun _ h => h) rfl rfl (fun _ h => h) ⟨le_rfl, rfl, rfl, rfl, rfl, rfl⟩
    fun h => h

/-- Reading names leaves the transaction its locks and files. -/
theorem continues_readNames (q : NameQuery) : Continues t' w (w.readNames q t) :=
  .of_db_eq rfl rfl (fun _ h => h) ⟨le_rfl, rfl, rfl, rfl, rfl, rfl⟩ fun h => h

/-- Reading names disturbs nobody else. -/
theorem rely_readNames (q : NameQuery) (hne : t' ≠ t) : Rely t' w (w.readNames q t) := by
  refine .of_db_eq rfl rfl (fun _ h => h) (if_neg hne) rfl (fun k h => ?_)
    ⟨le_rfl, rfl, rfl, rfl, rfl, rfl⟩ rfl fun h => h
  simp only [readNames] at h
  split_ifs at h
  · exact absurd (Option.some.inj h).symm hne
  · exact h

/-- Taking an advisory lock that is free disturbs nobody else. -/
theorem rely_takeFence (s : ℕ) (b : Bool) (hne : t' ≠ t) : Rely t' w (w.takeFence s b t) := by
  obtain ⟨fences, hf⟩ := takeFence_eq (w := w) (t := t) s b
  have hcase := takeFence_fences (w := w) (t := t) s b
  rw [hf] at hcase ⊢
  refine ⟨.of_fences rfl rfl (fun _ h => h) rfl rfl (fun _ h => h)
    (.of_eq rfl rfl fun s' => ?_)
    (.of_eq rfl rfl rfl rfl rfl rfl (fun s' a ha => ?_) (fun s' hu => ?_) le_rfl)
    fun h => h, rfl⟩
  · rcases hcase s' with heq | ⟨hfree, rfl, heq⟩
    · rw [heq]
      exact ⟨fun h => ⟨h, rfl⟩, fun h => h⟩
    · rw [heq]
      cases b with
      | true =>
        refine ⟨fun hx => ?_, fun h => h⟩
        simp only [fenceFree, hx, Option.all_some, Bool.and_eq_true, decide_eq_true_eq] at hfree
        exact absurd hfree.1 hne
      | false => exact ⟨fun h => ⟨h, rfl⟩, fun h => List.mem_cons_of_mem _ h⟩
  · rcases hcase s' with heq | ⟨hfree, rfl, heq⟩
    · rw [heq] at ha ⊢
      exact ⟨ha, rfl⟩
    · rw [heq] at ha ⊢
      cases b with
      | true => cases ha
      | false => exact ⟨ha, rfl⟩
  · rcases hcase s' with heq | ⟨-, rfl, heq⟩
    · rw [Unfenced, heq]
      exact hu
    · rw [Unfenced, heq]
      cases b with
      | true => exact ⟨fun h => hne (Option.some.inj h).symm, hu.2⟩
      | false => exact ⟨hu.1, fun h => (List.mem_cons.mp h).elim hne hu.2⟩

/-- The end of a transaction takes no advisory lock from another. -/
theorem held_release (hne : t' ≠ t) : Retains t' w (w.release t) :=
  .of_eq rfl rfl (fun _ => ⟨fun h => ⟨h, rfl⟩, fun h =>
    List.mem_filter.mpr ⟨h, decide_eq_true hne⟩⟩)

theorem persists_release : Persists t' w (w.release t) :=
  .of_eq rfl rfl rfl rfl rfl rfl (fun _ _ h => ⟨h, rfl⟩)
    (fun _ hu => ⟨hu.1, fun h => hu.2 (List.mem_of_mem_filter h)⟩) le_rfl

theorem rely_release (hne : t' ≠ t) : Rely t' w (w.release t) :=
  ⟨.of_fences rfl rfl (fun _ h => release_locks_of_ne hne h) (if_neg hne) rfl (fun _ h => h)
    (held_release hne) persists_release fun h => h, rfl⟩

theorem unfence_fences (s : ℕ) : (w.unfence t).fences s = w.fences s ∨
    (w.fences s).exclusive = some t ∧
      (w.unfence t).fences s = { w.fences s with exclusive := none, attempt := none } := by
  unfold unfence
  by_cases hx : (w.fences s).exclusive = some t
  · exact .inr ⟨hx, if_pos hx⟩
  · exact .inl (if_neg hx)

theorem persists_unfence : Persists t' w (w.unfence t) := by
  refine .of_eq rfl rfl rfl rfl rfl rfl (fun s a ha => ?_) (fun s hu => ?_) le_rfl
  · rcases unfence_fences (w := w) (t := t) s with heq | ⟨hx, heq⟩
    · rw [heq] at ha ⊢
      exact ⟨ha, rfl⟩
    · rw [heq] at ha
      cases ha
  · rcases unfence_fences (w := w) (t := t) s with heq | ⟨-, heq⟩
    · rw [Unfenced, heq]
      exact hu
    · rw [Unfenced, heq]
      exact ⟨(fun hx => by cases hx), hu.2⟩

theorem rely_unfence (hne : t' ≠ t) : Rely t' w (w.unfence t) := by
  refine ⟨.of_fences rfl rfl (fun _ h => h) rfl rfl (fun _ h => h)
    (.of_eq rfl rfl fun s => ?_) persists_unfence fun h => h, rfl⟩
  rcases unfence_fences (w := w) (t := t) s with heq | ⟨hx, heq⟩
  · rw [heq]
    exact ⟨fun h => ⟨h, rfl⟩, fun h => h⟩
  · rw [heq]
    exact ⟨fun h => absurd (Option.some.inj (h.symm.trans hx)) hne, fun h => h⟩

/-- What is known for good survives the loss of the own connection. -/
theorem persists_disconnect : Persists t' w (w.disconnect t) :=
  (persists_release.trans persists_unfence).trans
    (.of_eq rfl rfl rfl rfl rfl rfl (fun _ _ h => ⟨h, rfl⟩) (fun _ h => h) le_rfl)

theorem unfenced_disconnect (s : ℕ) : (w.disconnect t).Unfenced t s := by
  have hr : t ∉ ((w.release t).fences s).shared := fun h => by
    simpa using (List.mem_filter.mp h).2
  change ((w.release t).unfence t).Unfenced t s
  rcases unfence_fences (w := w.release t) (t := t) s with heq | ⟨-, heq⟩
  · rw [Unfenced, heq]
    refine ⟨fun hx => ?_, hr⟩
    have hn : (((w.release t).unfence t).fences s).exclusive = none := by
      simp only [unfence, if_pos hx]
    rw [heq, hx] at hn
    cases hn
  · rw [Unfenced, heq]
    exact ⟨(fun hx => by cases hx), hr⟩

theorem rely_disconnect (hne : t' ≠ t) : Rely t' w (w.disconnect t) :=
  ((rely_release hne).trans (rely_unfence hne)).trans
    (.of_db_eq rfl rfl (fun _ h => h) rfl (if_neg hne) (fun _ h => h)
      ⟨le_rfl, rfl, rfl, rfl, rfl, rfl⟩ rfl fun h => h)

/-- A row locked by `t'` is not locked by `t`. -/
theorem not_locked {k : LockKey} (hne : t' ≠ t) (h : w.locks k = some t') : w.locks k ≠ some t :=
  fun h' => hne (Option.some.inj (h.symm.trans h'))

/-- **Respectful writes keep what another thread has locked.** -/
theorem keeps_write {tx : Tx} (h : Respects t w (tx.apply w.db) (tx.entered w.db))
    (hne : t' ≠ t) : Keeps t' w (w.write tx t) where
  locks _ hk := hk
  rows k x hl hx := h.rows k x (not_locked hne hl) (fun hn => by rw [hn] at hl; cases hl) hx
  tree u hl f r hu := h.tree u (not_locked hne hl) f r hu
  objects u hl i r hu hr := h.objects u (not_locked hne hl) i r hu hr
  seen i r hr := by
    cases hr' : (tx.apply w.db).files.get i with
    | none => exact ⟨r, by simp only [write, hr', Option.none_or, hr], .refl r⟩
    | some r' => exact ⟨r', by simp only [write, hr', Option.some_or], h.same i r r' hr hr'⟩
  reservations i q' hq' ha hl := h.sessions.reservations i q' hq' ha (not_locked hne hl)
  receipts i r' l hr' hs hl := h.receipts i r' l hr' hs (not_locked hne hl)
  grows := h.grows

theorem write_sweeping_of_ne (tx : Tx) (hne : t' ≠ t) :
    (w.write tx t).sweeping t' = w.sweeping t' := by
  simp only [write, if_neg hne]
  split <;> rfl

/-- A row seen after respectful writes is of an object seen before, or is one of the rows there. -/
theorem seen_write {tx : Tx} {db' : Db} {entered : List Slot} (h : Respects t w db' entered)
    (hdb : tx.apply w.db = db') {i : ℕ} {r : File} (hr : (w.write tx t).seen i = some r) :
    (∃ r₀, w.seen i = some r₀ ∧ r₀.SameObject r) ∨
      w.seen i = none ∧ db'.files.get i = some r := by
  subst hdb
  simp only [write] at hr
  cases hs : w.seen i with
  | none =>
    rw [hs, Option.or_none] at hr
    exact .inr ⟨rfl, hr⟩
  | some r₀ =>
    refine .inl ⟨r₀, rfl, ?_⟩
    cases hr' : (tx.apply w.db).files.get i with
    | none =>
      rw [hr', hs, Option.none_or] at hr
      cases hr
      exact .refl _
    | some r' =>
      rw [hr', Option.some_or] at hr
      cases hr
      exact h.same i r₀ r hs hr'

/-- A file whose row has been seen stays so. -/
theorem committed_write {tx : Tx} (h : Respects t w (tx.apply w.db) (tx.entered w.db)) {s : ℕ}
    {a : Option ℕ} (hc : w.Committed s a) : (w.write tx t).Committed s a := by
  obtain ⟨i, r, hr, hp⟩ := hc
  obtain ⟨r', hr', hsame⟩ := (keeps_write h (Nat.succ_ne_self t)).seen i r hr
  exact ⟨i, r', hr', hsame.placement.trans hp⟩

/-- **What is known of objects survives the writes of another thread.** -/
theorem persists_write {tx : Tx} (h : Respects t w (tx.apply w.db) (tx.entered w.db))
    (ho : w.disk.flock ≠ some t → ∀ id,
      (tx.apply w.db).finalizationOperations.get id = w.db.finalizationOperations.get id)
    (hne : t' ≠ t) : Persists t' w (w.write tx t) where
  now := le_rfl
  issued := le_rfl
  received _ hx := hx
  sessions := h.sessions.issued
  torn _ hs := hs
  stray _ hs := hs
  attempts _ _ data _ hd := ⟨data, hd⟩
  unfenced _ hu := hu
  own _ _ ho := ho
  unpublished s a ho hu i r hr hp := by
    rcases seen_write h rfl hr with ⟨r₀, hr₀, hsame⟩ | ⟨hnone, hr⟩
    · exact Bool.or_eq_true_iff.mpr (.inl (hu i r₀ hr₀ (hsame.placement.symm.trans hp)))
    · obtain ⟨n, rfl, ha, hx, -⟩ := (h.placed i r hr hnone).attempt s a hp
      exact absurd (Option.some.inj (((ho n rfl).2 ha).symm.trans hx)) hne
  committed s a hc := committed_write h hc
  owned s u _ hq ho i r hr hs := by
    rcases seen_write h rfl hr with ⟨r₀, hr₀, hsame⟩ | ⟨hnone, hr⟩
    · exact hsame.userId.trans (ho i r₀ hr₀ (hsame.uploadId.symm.trans hs))
    · obtain ⟨q, hq', hu⟩ := (h.placed i r hr hnone).owner s hs
      exact hu.trans (hq q hq')
  ssd hl := ⟨hl, rfl⟩
  inactive := h.sessions.inactive
  operations hl := ho fun he => hne (Option.some.inj (hl.symm.trans he))
  uploads s q q' hl := h.sessions.uploads s q q' fun he => hne (Option.some.inj (hl.symm.trans he))

/-- **Respectful writes disturb nobody.** -/
theorem rely_write {tx : Tx} (h : Respects t w (tx.apply w.db) (tx.entered w.db))
    (ho : w.disk.flock ≠ some t → ∀ id,
      (tx.apply w.db).finalizationOperations.get id = w.db.finalizationOperations.get id)
    (hne : t' ≠ t) : Rely t' w (w.write tx t) where
  keeps := keeps_write h hne
  held :=
    { exclusive := fun _ hx => ⟨hx, rfl⟩
      shared := fun _ hs => hs
      chunks := fun s q q' hx hq hl hq' => h.sessions.chunks s q q'
        (fun hx' => hne (Option.some.inj (hx.symm.trans hx')))
        (fun hn => by rw [hn] at hx; cases hx) hq hl hq'
      attempt := fun _ _ _ _ => ⟨fun _ hd => hd, rfl⟩
      chunkFiles := fun _ _ => .inr rfl
      objects := fun _ _ _ hn => .inr hn }
  checked := rfl
  persists := persists_write h ho hne
  lost := fun h => h
  window := rfl
  sweeping := write_sweeping_of_ne tx hne
  reserved k hk := by
    simp only [write] at hk
    split_ifs at hk with hin
    exact ⟨hk, fun e n hn => (h.named k e n hn).resolve_right hin⟩

end World

/-! ## The invariant -/

namespace DiskInv

variable {w w' : World} {t : ℕ}

/-- The database and the files are the same. -/
theorem of_eq (h : DiskInv w) (hdb : w'.db = w.db) (hd : w'.disk = w.disk)
    (hs : w'.seen = w.seen) (he : w'.erased = w.erased)
    (detached : ∀ t s, w'.lost t = true → w'.Unfenced t s)
    (sole : ∀ s t t', (w'.fences s).exclusive = some t → t' ∈ (w'.fences s).shared → t' = t)
    (assembling : ∀ s a, (w'.fences s).attempt = some a →
      (w'.fences s).exclusive ≠ none ∧ (w.fences s).attempt = some a) : DiskInv w' where
  detached := detached
  sole := sole
  assembling s a ha := by
    obtain ⟨hx, ha'⟩ := assembling s a ha
    exact ⟨hx, hd ▸ (h.assembling s a ha').2⟩
  received := hd ▸ h.received
  sized := by
    rw [hd, hdb]
    exact h.sized
  attempts := hd ▸ h.attempts
  linked := hd ▸ h.linked
  placed := by
    rw [hd, hs]
    exact h.placed
  erased := by
    rw [hdb, hs, he]
    exact h.erased
  backed := by
    rw [hdb, hd]
    exact h.backed

/-- The advisory locks are the same, too. -/
theorem of_fences_eq (h : DiskInv w) (hdb : w'.db = w.db) (hd : w'.disk = w.disk)
    (hs : w'.seen = w.seen) (he : w'.erased = w.erased) (hf : w'.fences = w.fences)
    (hl : ∀ t, w'.lost t = true → w.lost t = true) : DiskInv w' :=
  h.of_eq hdb hd hs he
    (fun t s ht => by
      rw [World.Unfenced, hf]
      exact h.detached t s (hl t ht))
    (hf ▸ h.sole) fun s a ha => by
      rw [hf] at ha ⊢
      exact ⟨(h.assembling s a ha).1, ha⟩

theorem release (h : DiskInv w) : DiskInv (w.release t) :=
  h.of_eq rfl rfl rfl rfl
    (fun t' s ht => (World.persists_release (w := w) (t := t)).unfenced s (h.detached t' s ht))
    (fun s t' t'' hx hs => h.sole s t' t'' hx (List.mem_of_mem_filter hs))
    fun s a ha => ⟨(h.assembling s a ha).1, ha⟩

theorem unfence (h : DiskInv w) : DiskInv (w.unfence t) := by
  refine h.of_eq rfl rfl rfl rfl
    (fun t' s ht => (World.persists_unfence (w := w) (t := t)).unfenced s (h.detached t' s ht))
    (fun s t' t'' hx hs => ?_) fun s a ha => ?_
  · rcases World.unfence_fences (w := w) (t := t) s with heq | ⟨-, heq⟩
    · rw [heq] at hx hs
      exact h.sole s t' t'' hx hs
    · rw [heq] at hx
      cases hx
  · rcases World.unfence_fences (w := w) (t := t) s with heq | ⟨-, heq⟩
    · rw [heq] at ha ⊢
      exact ⟨(h.assembling s a ha).1, ha⟩
    · rw [heq] at ha
      cases ha

theorem takeFence (h : DiskInv w) (hl : w.lost t = false) (s : ℕ) (b : Bool) :
    DiskInv (w.takeFence s b t) := by
  have hdetached : ∀ t' s', w.lost t' = true → (w.takeFence s b t).Unfenced t' s' :=
    fun t' s' ht => (World.rely_takeFence s b fun he => by
      rw [he, hl] at ht
      cases ht).persists.unfenced s' (h.detached t' s' ht)
  obtain ⟨fences, hf⟩ := World.takeFence_eq (w := w) (t := t) s b
  have hcase := World.takeFence_fences (w := w) (t := t) s b
  rw [hf] at hcase hdetached ⊢
  refine h.of_eq rfl rfl rfl rfl hdetached (fun s' t' t'' hx hs => ?_) fun s' a ha => ?_
  · rcases hcase s' with heq | ⟨hfree, rfl, heq⟩
    · rw [heq] at hx hs
      exact h.sole s' t' t'' hx hs
    · rw [heq] at hx hs
      simp only [World.fenceFree, Bool.and_eq_true, Bool.or_eq_true, Bool.not_eq_true',
        List.all_eq_true, decide_eq_true_eq] at hfree
      cases b with
      | true =>
        cases hx
        exact (hfree.2.resolve_left (by decide)) t'' hs
      | false =>
        have hx : (w.fences s').exclusive = some t' := hx
        have ht : t' = t := by simpa [hx] using hfree.1
        rcases List.mem_cons.mp hs with rfl | hs
        · exact ht.symm
        · exact h.sole s' t' t'' hx hs
  · rcases hcase s' with heq | ⟨hfree, rfl, heq⟩
    · rw [heq] at ha ⊢
      exact ⟨(h.assembling s' a ha).1, ha⟩
    · rw [heq] at ha ⊢
      cases b with
      | true => cases ha
      | false => exact ⟨(h.assembling s' a ha).1, ha⟩

theorem write (h : DiskInv w) {tx : Tx}
    (hr : Respects t w (tx.apply w.db) (tx.entered w.db)) (hb : (tx.apply w.db).Backed w.disk.ssd) :
    DiskInv (w.write tx t) where
  detached := h.detached
  sole := h.sole
  assembling := h.assembling
  received := h.received
  sized s i data hd := by
    obtain ⟨hb, hsize⟩ := h.sized s i data hd
    refine ⟨lt_of_lt_of_le hb hr.sessions.issued.bound, fun q' hq' => ?_⟩
    obtain ⟨q, hq, hsame⟩ := hr.sessions.issued.old s q' hb hq'
    rw [hsame.totalChunks, hsame.chunkLength]
    exact hsize q hq
  attempts := h.attempts
  linked := h.linked
  placed i r s a hs hp := by
    rcases World.seen_write hr rfl hs with ⟨r₀, hr₀, hsame⟩ | ⟨hnone, hr'⟩
    · obtain ⟨n, ha, hn, hu⟩ := h.placed i r₀ s a hr₀ (hsame.placement.symm.trans hp)
      exact ⟨n, ha, hn, hsame.uploadId.trans hu⟩
    · obtain ⟨n, ha, hn, -, hu⟩ := (hr.placed i r hr' hnone).attempt s a hp
      exact ⟨n, ha, (h.assembling s n hn).2, hu⟩
  erased i r hs := by
    change ((tx.apply w.db).files.get i).isSome ∨ (w.erased i ||
      (w.db.files.get i).isSome && ((tx.apply w.db).files.get i).isNone) = true
    rcases World.seen_write hr rfl hs with ⟨r₀, hr₀, -⟩ | ⟨-, hr'⟩
    · rcases h.erased i r₀ hr₀ with hp | he
      · cases hg : (tx.apply w.db).files.get i with
        | none => exact .inr (by simp [hp])
        | some r' => exact .inl rfl
      · exact .inr (by simp [he])
    · exact .inl (by rw [hr']; rfl)
  backed := hb

end DiskInv

namespace Inv

variable {w : World} {t : ℕ}

/-- Neither the database changed nor a lock on the parent of a chosen name. -/
theorem of_db_eq (h : Inv w) {w' : World} (hdb : w'.db = w.db) (hs : w'.seen = w.seen)
    (hw : ∀ t c p, w'.window t = some c → c.slot.parentId = some p →
      w'.locks (.folder p) = some t) (hd : DiskInv w') : Inv w' where
  intact := hdb ▸ h.intact
  seen := by
    rw [hdb, hs]
    exact h.seen
  seen_bound := by
    rw [hdb, hs]
    exact h.seen_bound
  window := hw
  published := by
    rw [hdb, hs]
    exact h.published
  sessions := hdb ▸ h.sessions
  operations := hdb ▸ h.operations
  disk := hd

theorem lock (h : Inv w) {k : LockKey} (hk : w.locks k = none) : Inv (w.lock k t) := by
  have hf := World.lock_sameFiles (w := w) (t := t) k
  refine h.of_db_eq (World.lock_db k) (World.lock_seen k) (fun t' c p hc hp => ?_)
    (h.disk.of_fences_eq (World.lock_db k) hf.disk (World.lock_seen k) hf.erased hf.fences
      fun t' ht => by rwa [World.lock_lost] at ht)
  rw [World.lock_window] at hc
  exact World.lock_locks_of_free hk (h.window t' c p hc hp)

theorem readNames (h : Inv w) (q : NameQuery)
    (hq : ∀ p, q.slot.parentId = some p → w.locks (.folder p) = some t) :
    Inv (w.readNames q t) := by
  refine h.of_db_eq rfl rfl (fun t' c p hc hp => ?_) (h.disk.of_fences_eq rfl rfl rfl rfl rfl fun _ ht => ht)
  simp only [World.readNames] at hc
  split_ifs at hc with ht
  · subst ht
    obtain ⟨n, -, rfl⟩ := Option.map_eq_some_iff.mp hc
    exact hq p hp
  · exact h.window t' c p hc hp

theorem check (h : Inv w) {expires : ℕ} : Inv (w.check expires t) :=
  h.of_db_eq rfl rfl h.window (h.disk.of_fences_eq rfl rfl rfl rfl rfl fun _ ht => ht)

theorem release (h : Inv w) : Inv (w.release t) := by
  refine h.of_db_eq rfl rfl (fun t' c p hc hp => ?_) h.disk.release
  simp only [World.release] at hc
  split_ifs at hc with ht
  exact World.release_locks_of_ne ht (h.window t' c p hc hp)

theorem unfence (h : Inv w) : Inv (w.unfence t) :=
  h.of_db_eq rfl rfl h.window h.disk.unfence

theorem takeFence (h : Inv w) (hl : w.lost t = false) (s : ℕ) (b : Bool) :
    Inv (w.takeFence s b t) := by
  have hd := h.disk.takeFence hl s b
  obtain ⟨fences, hf⟩ := World.takeFence_eq (w := w) (t := t) s b
  rw [hf] at hd ⊢
  exact h.of_db_eq rfl rfl h.window hd

theorem disconnect (h : Inv w) : Inv (w.disconnect t) := by
  have hu := (h.release (t := t)).unfence (t := t)
  exact hu.of_db_eq rfl rfl hu.window (hu.disk.of_fences_eq rfl rfl rfl rfl rfl fun _ ht => ht)

theorem write (h : Inv w) {tx : Tx} (hr : Respects t w (tx.apply w.db) (tx.entered w.db))
    (hp : Published (tx.apply w.db) (w.write tx t).seen) (hs : SessionsInv (tx.apply w.db))
    (ho : OperationsInv (tx.apply w.db)) (hb : (tx.apply w.db).Backed w.disk.ssd) :
    Inv (w.write tx t) where
  intact := hr.intact
  seen i r hi := by
    change (tx.apply w.db).files.get i = some r at hi
    simp only [World.write, hi, Option.some_or]
  seen_bound i r hi := by
    change i < (tx.apply w.db).files.bound
    cases hr' : (tx.apply w.db).files.get i with
    | some r' => exact Table.lt_bound hr'
    | none =>
      simp only [World.write, hr', Option.none_or] at hi
      exact lt_of_lt_of_le (h.seen_bound i r hi) hr.files_bound
  window := h.window
  published := hp
  sessions := hs
  operations := ho
  disk := h.disk.write hr hb

end Inv

end HomeCloud
