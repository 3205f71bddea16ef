import HomeCloud.Interference

/-!
# Steps on the files leave others alone

A step on the files that meets its precondition disturbs no thread that has the session locked,
unless the session is recorded as torn or a link as stray, and keeps what holds of the files.

* `World.held_onDisk`, `World.persists_onDisk`, **`World.rely_onDisk`**: what others know stays true.
* **`Inv.onDisk`**: the invariant is kept.
-/

namespace HomeCloud

open Concurrent

variable {w : World} {t t' : ℕ} {op : DiskOp}

namespace World

/-- Two threads do not have one session locked. -/
theorem not_controls (h : DiskInv w) {s : ℕ} (hne : t' ≠ t) (hc : w.controls s t' = true) :
    w.controls s t = false := by
  by_contra hn
  simp only [controls, Bool.not_eq_false, Bool.or_eq_true, Bool.and_eq_true,
    decide_eq_true_eq] at hc hn
  rcases hc with hx | ⟨hs, hl⟩
  · rcases hn with hx' | ⟨hs', -⟩
    · exact hne (Option.some.inj (hx.symm.trans hx'))
    · exact hne (h.sole s t' t hx hs').symm
  · rcases hn with hx' | ⟨-, hl'⟩
    · exact hne (h.sole s t t' hx' hs)
    · exact hne (Option.some.inj (hl.symm.trans hl'))

/-- A step gives out an advisory lock to nobody, and an attempt only to the thread that assembles. -/
theorem onDisk_fences (w : World) (op : DiskOp) (t s : ℕ) : (w.onDisk op t).fences s = w.fences s ∨
    (w.fences s).exclusive = some t ∧ op = .createAttempt s ∧
      (w.onDisk op t).fences s = { w.fences s with attempt := some w.disk.issued } := by
  cases op with
  | createAttempt s' =>
    by_cases hx : (w.fences s').exclusive = some t
    · have hf : (w.onDisk (.createAttempt s') t).fences =
          setAt w.fences s' { w.fences s' with attempt := some w.disk.issued } := if_pos hx
      rw [hf]
      by_cases hs : s = s'
      · subst hs
        exact .inr ⟨hx, rfl, setAt_self ..⟩
      · exact .inl (setAt_ne _ _ hs)
    · exact .inl (congrFun (if_neg hx) s)
  | _ => exact .inl rfl

@[simp]
theorem onDisk_look : w.onDisk .look t = w := by
  simp [onDisk, DiskOp.apply, DiskOp.tears, DiskOp.links]

/-- The object of an attempt changes only by a step of the thread whose attempt it is. -/
theorem not_changesObject_of_pre (hp : op.Pre t w) (hne : t' ≠ t) {s a : ℕ}
    (hx : (w.fences s).exclusive = some t') (ha : (w.fences s).attempt = some a) :
    ¬ op.changesObject s (some a) := by
  have hown : ¬ w.Own t s a := fun ho => hne (Option.some.inj (hx.symm.trans (ho.2 ha)))
  rintro (⟨n, hn, rfl⟩ | rfl)
  · cases hn
    exact hown hp
  · exact hown (hp.1 a rfl)

/-- **What another thread has for itself it keeps.** -/
theorem held_onDisk (hi : DiskInv w) (hp : op.Pre t w) (hne : t' ≠ t) :
    Retains t' w (w.onDisk op t) where
  exclusive s hx := by
    rcases onDisk_fences w op t s with heq | ⟨hx', -, -⟩
    · rw [heq]
      exact ⟨hx, rfl⟩
    · exact absurd (Option.some.inj (hx.symm.trans hx')) hne
  shared s hs := by
    rcases onDisk_fences w op t s with heq | ⟨-, -, heq⟩ <;>
    · rw [heq]
      exact hs
  chunks s q q' _ hq _ hq' := by
    cases hq.symm.trans hq'
    rfl
  attempt s a hx ha := by
    refine ⟨fun data hd => ?_, DiskOp.objects_eq op (not_changesObject_of_pre hp hne hx ha)⟩
    refine op.mem_attempts (hi.assembling s a ha).2 hd fun x heq => ?_
    subst heq
    exact hne (Option.some.inj (hx.symm.trans (hp.2 ha)))
  chunkFiles s hc := by
    by_cases ht : op.tears = some s
    · refine .inl (Bool.or_eq_true_iff.mpr (.inr ?_))
      simp only [ht, decide_true, Bool.true_and, not_controls hi hne hc, Bool.not_false]
    · exact .inr (op.chunkFiles_eq ht)
  objects s a hc hn := by
    by_cases ht : op.links = some s
    · refine .inl (Bool.or_eq_true_iff.mpr (.inr ?_))
      simp only [ht, decide_true, Bool.true_and, not_controls hi hne hc, Bool.not_false]
    · exact .inr (op.objects_none ht hn)

/-- **What is known of the files for good stays true**, also by an own step on the legacy uploads. -/
theorem persists_onDisk (hp : op.Pre t w) (hop : t' ≠ t ∨ op.onSsd = false) :
    Persists t' w (w.onDisk op t) where
  now := le_rfl
  issued := op.issued_le
  received _ hx := op.mem_received hx
  sessions := .refl _ UploadSession.SameUpload.refl
  torn _ hs := Bool.or_eq_true_iff.mpr (.inl hs)
  stray _ hs := Bool.or_eq_true_iff.mpr (.inl hs)
  attempts s a data' ha hd := by
    rcases op.attempt_apply hd with ⟨data, hold, -⟩ | ⟨-, rfl⟩
    · exact ⟨data, hold⟩
    · exact absurd ha (lt_irrefl _)
  unfenced s hu := by
    rcases onDisk_fences w op t s with heq | ⟨-, -, heq⟩ <;>
    · rw [Unfenced, heq]
      exact hu
  own s a ho := by
    refine ⟨lt_of_lt_of_le ho.1 op.issued_le, fun ha => ?_⟩
    rcases onDisk_fences w op t s with heq | ⟨-, -, heq⟩
    · rw [heq] at ha ⊢
      exact ho.2 ha
    · rw [heq] at ha
      cases ha
      exact absurd ho.1 (lt_irrefl _)
  unpublished _ _ _ hu := hu
  committed _ _ hc := hc
  owned _ _ _ _ ho := ho
  ssd hl := by
    cases op with
    | ssd op => exact absurd (Option.some.inj (hl.symm.trans hp.1)) (hop.resolve_right fun h => by cases h)
    | lockSsd =>
      have hn : w.disk.flock ≠ none := by
        rw [hl]
        exact Option.some_ne_none _
      simp only [onDisk, DiskOp.apply, if_neg hn]
      exact ⟨hl, trivial⟩
    | unlockSsd =>
      have hn : w.disk.flock ≠ some t := fun h =>
        hop.resolve_right (fun h => by cases h) (Option.some.inj (hl.symm.trans h))
      simp only [onDisk, DiskOp.apply, if_neg hn]
      exact ⟨hl, trivial⟩
    | writeChunk | link =>
      simp only [onDisk, DiskOp.apply]
      split <;> exact ⟨hl, rfl⟩
    | _ => exact ⟨hl, rfl⟩
  inactive s q q' hq hq' ha := by
    cases hq.symm.trans hq'
    exact ha
  operations _ _ := rfl
  uploads s q q' _ hq hq' _ := by
    cases hq.symm.trans hq'
    exact ⟨rfl, rfl⟩

/-- **A step on the files disturbs nobody.** -/
theorem rely_onDisk (hi : DiskInv w) (hp : op.Pre t w) (hne : t' ≠ t) :
    Rely t' w (w.onDisk op t) :=
  ⟨.of_fences rfl rfl (fun _ h => h) rfl rfl (fun _ h => h) (held_onDisk hi hp hne)
    (persists_onDisk hp (.inl hne)) fun h => h, rfl⟩

end World

/-! ## The invariant -/

/-- A chunk file after the step. -/
theorem DiskOp.chunkFiles_apply {d : Disk} {s i : ℕ} {data : Bytes}
    (h : (op.apply t d).chunkFiles s i = some data) :
    d.chunkFiles s i = some data ∨ op = .writeChunk s i data := by
  cases op with
  | writeChunk s' i' data' =>
    simp only [DiskOp.apply] at h
    split at h
    · by_cases hs : s = s'
      · subst hs
        simp only [setAt_self] at h
        by_cases hi : i = i'
        · subst hi
          simp only [setAt_self] at h
          cases h
          exact .inr rfl
        · simp only [setAt_ne _ _ hi] at h
          exact .inl h
      · simp only [setAt_ne _ _ hs] at h
        exact .inl h
    · exact .inl h
  | clearDirectory s' n =>
    by_cases hs : s = s'
    · subst hs
      simp only [DiskOp.apply, setAt_self] at h
      split_ifs at h
      exact .inl h
    · simp only [DiskOp.apply, setAt_ne _ _ hs] at h
      exact .inl h
  | removeDirectory s' =>
    by_cases hs : s = s'
    · subst hs
      simp only [DiskOp.apply, setAt_self, reduceCtorEq] at h
    · simp only [DiskOp.apply, setAt_ne _ _ hs] at h
      exact .inl h
  | link | lockSsd | unlockSsd =>
    simp only [DiskOp.apply] at h
    split at h <;> exact .inl h
  | _ => exact .inl h

/-- An object after the step has been there before, or is that of an attempt file. -/
theorem DiskOp.object_apply {d : Disk} {s a : ℕ}
    (h : (op.apply t d).objects (finalPlacement s (some a)) ≠ none) :
    d.objects (finalPlacement s (some a)) ≠ none ∨ ∃ data, (a, data) ∈ d.attempts s := by
  by_cases hc : op.changesObject s (some a)
  · rcases hc with ⟨n, hn, rfl⟩ | rfl
    · cases hn
      simp only [DiskOp.apply] at h
      split at h
      · rename_i x hx _
        have hfst : x.1 = a := by simpa using List.find?_some hx
        exact .inr ⟨x.2, hfst ▸ List.mem_of_find?_eq_some hx⟩
      · exact .inl h
    · exact absurd (setAt_self ..) h
  · rw [op.objects_eq hc] at h
    exact .inl h

/-- **A step on the files keeps what holds of them.** -/
theorem DiskInv.onDisk (h : DiskInv w) (hp : op.Pre t w) : DiskInv (w.onDisk op t) where
  detached t' s hl := by
    rcases World.onDisk_fences w op t s with heq | ⟨-, -, heq⟩ <;>
    · rw [World.Unfenced, heq]
      exact h.detached t' s hl
  sole s t₁ t₂ hx hs := by
    rcases World.onDisk_fences w op t s with heq | ⟨-, -, heq⟩ <;>
    · rw [heq] at hx hs
      exact h.sole s t₁ t₂ hx hs
  assembling s a ha := by
    rcases World.onDisk_fences w op t s with heq | ⟨hx, hop, heq⟩
    · rw [heq] at ha ⊢
      exact ⟨(h.assembling s a ha).1, lt_of_lt_of_le (h.assembling s a ha).2 op.issued_le⟩
    · rw [heq] at ha ⊢
      cases ha
      subst hop
      exact ⟨fun hn => Option.some_ne_none t (hx.symm.trans hn), Nat.lt_succ_self _⟩
  received s i data hd := by
    rcases op.chunkFiles_apply hd with hold | rfl
    · exact op.mem_received (h.received s i data hold)
    · exact DiskOp.mem_received _ hp.1
  sized s i data hd := by
    rcases op.chunkFiles_apply hd with hold | rfl
    · exact h.sized s i data hold
    · exact ⟨hp.2.1, hp.2.2.1⟩
  linked s a ho := by
    refine lt_of_lt_of_le ?_ op.issued_le
    rcases op.object_apply ho with hold | ⟨data, hd⟩
    · exact h.linked s a hold
    · exact h.attempts s a data hd
  attempts s a data ha := by
    rcases op.attempt_apply ha with ⟨old, hold, -⟩ | ⟨rfl, rfl⟩
    · exact lt_of_lt_of_le (h.attempts s a old hold) op.issued_le
    · exact Nat.lt_succ_self _
  placed i r s a hr hpl := by
    obtain ⟨n, ha, hn, hu⟩ := h.placed i r s a hr hpl
    exact ⟨n, ha, lt_of_lt_of_le hn op.issued_le, hu⟩
  erased := h.erased
  backed := by
    cases op with
    | ssd op => exact h.backed.step hp.2
    | writeChunk | link | lockSsd | unlockSsd =>
      simp only [World.onDisk, DiskOp.apply]
      split <;> exact h.backed
    | _ => exact h.backed

theorem Inv.onDisk (h : Inv w) (hp : op.Pre t w) : Inv (w.onDisk op t) :=
  h.of_db_eq rfl rfl h.window (h.disk.onDisk hp)

end HomeCloud
