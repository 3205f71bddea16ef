import HomeCloud.Rules
import HomeCloud.Uploads.Service

/-!
# Holding the lock on a session

An upload operation goes on with its files also when its connection breaks, so what it knows is known
while the connection holds, or for good.

* `Goes`: what stays while an operation goes on, also by its own steps on the files.
* `Known`: a session that has been read; `World.Tidy`: the attempts on it that are not cleared.
* **`wp_cleanupUnpublishedAssembly`**, `wp_deleteTempFiles`: the cleanup leaves only cleared attempts.
-/

namespace HomeCloud

open Concurrent

section

variable {t : ℕ} {w w' : World} {id : ℕ} {s : UploadSession} {op : DiskOp}

/-! ## Going on -/

/-- A step on the files of a legacy upload that makes no attempt. -/
def DiskOp.plain : DiskOp → Bool
  | .createAttempt _ | .lockSsd | .unlockSsd | .ssd _ => false
  | _ => true

theorem DiskOp.onSsd_of_plain (h : op.plain = true) : op.onSsd = false := by
  cases op <;> first | rfl | cases h

/-- What stays for good, and while the connection holds also locks and locked rows. -/
structure Goes (t : ℕ) (w w' : World) : Prop where
  persists : Persists t w w'
  live : w'.lost t = false → w.lost t = false
  keeps : w'.lost t = false → Keeps t w w'
  locks : w'.lost t = false → RetainsLocks t w w'

theorem Goes.refl (t : ℕ) (w : World) : Goes t w w :=
  ⟨.refl t w, fun h => h, fun _ => .refl t w, fun _ => .refl t w⟩

theorem Goes.trans {w₁ w₂ w₃ : World} (h : Goes t w₁ w₂) (h' : Goes t w₂ w₃) : Goes t w₁ w₃ where
  persists := h.persists.trans h'.persists
  live hl := h.live (h'.live hl)
  keeps hl := (h.keeps (h'.live hl)).trans (h'.keeps hl)
  locks hl := (h.locks (h'.live hl)).trans (h'.locks hl) (h.keeps (h'.live hl)).grows
    (h'.keeps hl).grows

theorem Continues.goes (h : Continues t w w') : Goes t w w' :=
  ⟨h.persists, h.live, fun _ => h.keeps, fun _ => h.held.toRetainsLocks⟩

theorem Attached.continues (h : Attached t w w') (hl : w'.lost t = false) : Continues t w w' :=
  (h.rely hl).toContinues

theorem Attached.live (h : Attached t w w') (hl : w'.lost t = false) : w.lost t = false :=
  (h.continues hl).live hl

theorem Attached.goes (h : Attached t w w') : Goes t w w' :=
  ⟨h.persists, h.live, fun hl => (h.continues hl).keeps,
    fun hl => (h.continues hl).held.toRetainsLocks⟩

namespace World

theorem onDisk_fences_plain (hop : op.plain = true) : (w.onDisk op t).fences = w.fences := by
  funext s
  rcases onDisk_fences w op t s with heq | ⟨-, hc, -⟩
  · exact heq
  · rw [hc] at hop
    cases hop

/-- An own step on the files. -/
theorem goes_onDisk (hop : op.plain = true) (hp : op.Pre t w) : Goes t w (w.onDisk op t) where
  persists := persists_onDisk hp (.inr (DiskOp.onSsd_of_plain hop))
  live h := h
  keeps _ := .of_db_eq rfl rfl fun _ h => h
  locks _ :=
    { exclusive := fun s h => by
        rw [onDisk_fences_plain hop]
        exact ⟨h, rfl⟩
      shared := fun s h => by
        rw [onDisk_fences_plain hop]
        exact h
      chunks := (RetainsLocks.refl t w).chunks }

theorem controls_onDisk (hop : op.plain = true) (t' : ℕ) :
    (w.onDisk op t).controls id t' = w.controls id t' := by
  simp only [controls, onDisk_fences_plain hop]
  rfl

/-- A thread whose connection has broken has no session locked. -/
theorem controls_of_lost (hi : DiskInv w) (hl : w.lost t = true) : w.controls id t = false := by
  have hu := hi.detached t id hl
  simp only [controls, hu.1, hu.2, decide_false, Bool.false_and, Bool.or_self]

/-- While a session is locked no attempt on it is one of another thread. -/
theorem own_of_controls (hi : DiskInv w) (hc : w.controls id t = true) {a : ℕ}
    (ha : a < w.disk.issued) : w.Own t id a := by
  refine ⟨ha, fun hatt => ?_⟩
  simp only [controls, Bool.or_eq_true, Bool.and_eq_true, decide_eq_true_eq] at hc
  rcases hc with hx | ⟨hs, -⟩
  · exact hx
  · obtain ⟨t', hx⟩ := Option.ne_none_iff_exists'.mp (hi.assembling id a hatt).1
    rw [hx, hi.sole id t' t hx hs]

end World

/-- **A step on the files that leaves the locks alone.** -/
theorem wp_onFiles_goes {α : Type} {f : World → α} {Q : α → World → Prop} (hop : op.plain = true)
    (h : ∀ w', Attached t w w' → Inv w' → op.Pre t w' ∧
      (Goes t w (w'.onDisk op t) → Inv (w'.onDisk op t) → Q (f w') (w'.onDisk op t))) :
    After t (onFiles op f) Q w :=
  wp_onFiles fun w' ha hi => by
    obtain ⟨hp, hq⟩ := h w' ha hi
    exact ⟨hp, hq (ha.goes.trans (World.goes_onDisk hop hp)) (hi.onDisk hp)⟩

/-! ## Sessions -/

/-- The session `s` has been read under the number `id`. -/
structure Known (w : World) (id : ℕ) (s : UploadSession) : Prop where
  bound : id < w.db.uploadSessions.bound
  same : ∀ q, w.db.uploadSessions.get id = some q → s.SameUpload q
  owned : w.Owned id s.userId

theorem Known.of_row (hi : Inv w) (h : w.db.uploadSessions.get id = some s) : Known w id s where
  bound := Table.lt_bound h
  same q hq := by
    cases h.symm.trans hq
    exact .refl s
  owned i r hr hu := (hi.published.completed i r id s hr hu h).2

theorem Known.persists (h : Known w id s) (hp : Persists t w w') : Known w' id s where
  bound := lt_of_lt_of_le h.bound hp.sessions.bound
  same q' hq' := by
    obtain ⟨q, hq, hsame⟩ := hp.sessions.old id q' h.bound hq'
    exact (h.same q hq).trans hsame
  owned := hp.owned id s.userId h.bound (fun q hq => (h.same q hq).userId) h.owned

/-- `t` is in a transaction on the session, whose row it has locked. -/
structure Engaged (t : ℕ) (w : World) (id : ℕ) (s : UploadSession) : Prop where
  row : w.db.uploadSessions.get id = some s
  locked : w.locks (.session id) = some t
  fenced : t ∈ (w.fences id).shared

theorem Engaged.controls (h : Engaged t w id s) : w.controls id t = true := by
  simp only [World.controls, h.locked, h.fenced, decide_true, Bool.and_self, Bool.or_true]

theorem Engaged.keeps (h : Engaged t w id s) (hk : Keeps t w w') (hl : RetainsLocks t w w') :
    Engaged t w' id s :=
  ⟨hk.sessions _ _ h.locked h.row, hk.locks _ h.locked, hl.shared _ h.fenced⟩

theorem Engaged.continues (h : Engaged t w id s) (hc : Continues t w w') : Engaged t w' id s :=
  h.keeps hc.keeps hc.held.toRetainsLocks

theorem Engaged.goes (h : w.lost t = false → Engaged t w id s) (hg : Goes t w w')
    (hl : w'.lost t = false) : Engaged t w' id s :=
  (h (hg.live hl)).keeps (hg.keeps hl) (hg.locks hl)

/-! ## Attempts -/

/-- The object of every attempt on the session that has a file, but for those in `P`, is not there or
that of a file, unless there is a stray one. -/
def World.Tidy (w : World) (id : ℕ) (P : ℕ → Prop) : Prop :=
  w.stray id = true ∨ ∀ a data, (a, data) ∈ w.disk.attempts id → P a ∨ w.Cleared id a

/-- While the session is locked, a cleared attempt stays so, unless there is a stray object. -/
theorem World.Cleared.continues {a : ℕ} (h : w.Cleared id a) (hc : w.controls id t = true)
    (hr : Continues t w w') : w'.stray id = true ∨ w'.Cleared id a := by
  rcases h with hn | hcom
  · exact (hr.held.objects id (some a) hc hn).imp_right .inl
  · exact .inr (.inr (hr.persists.committed id _ hcom))

namespace World.Tidy

variable {P P' : ℕ → Prop}

theorem mono (h : w.Tidy id P) (hP : ∀ a, P a → P' a) : w.Tidy id P' :=
  h.imp_right fun h a data ha => (h a data ha).imp_left (hP a)

/-- While the session is locked, it stays so. -/
theorem continues (h : w.Tidy id P) (hi : DiskInv w) (hc : w.controls id t = true)
    (hr : Continues t w w') : w'.Tidy id P := by
  rcases h with hs | h
  · exact .inl (hr.persists.stray id hs)
  by_cases hstray : w'.stray id = true
  · exact .inl hstray
  refine .inr fun a data' ha => ?_
  have hcleared : w.Cleared id a → w'.Cleared id a :=
    fun h => (h.continues hc hr).resolve_left hstray
  by_cases hlt : a < w.disk.issued
  · obtain ⟨data, hd⟩ := hr.persists.attempts id a data' hlt ha
    exact (h a data hd).imp_right hcleared
  · right
    refine hcleared (.inl ?_)
    by_contra hne
    exact hlt (hi.linked id a hne)

theorem attached (h : w.lost t = false → w.controls id t = true ∧ w.Tidy id P) (hi : DiskInv w)
    (ha : Attached t w w') (hl : w'.lost t = false) : w'.controls id t = true ∧ w'.Tidy id P := by
  obtain ⟨hc, htidy⟩ := h (ha.live hl)
  exact ⟨(ha.continues hl).controls hc, htidy.continues hi hc (ha.continues hl)⟩

theorem unlink (h : w.Tidy id P) (a : Option ℕ) : (w.onDisk (.unlink id a) t).Tidy id P := by
  refine h.imp (fun hs => Bool.or_eq_true_iff.mpr (.inl hs)) fun h b data hb => ?_
  refine (h b data hb).imp_right fun hc => hc.imp_left fun hn => ?_
  exact DiskOp.objects_none (t := t) (.unlink id a) nofun hn

theorem removeAttempt (h : w.Tidy id P) (a : ℕ) :
    (w.onDisk (.removeAttempt id a) t).Tidy id fun b => P b ∧ b ≠ a := by
  refine h.imp (fun hs => Bool.or_eq_true_iff.mpr (.inl hs)) fun h b data hb => ?_
  have hb' : (b, data) ∈ (w.disk.attempts id).filter (·.1 ≠ a) := by
    simpa [World.onDisk, DiskOp.apply] using hb
  obtain ⟨hmem, hne⟩ := List.mem_filter.mp hb'
  exact (h b data hmem).imp_left fun hP => ⟨hP, of_decide_eq_true hne⟩

/-- What has to hold before the directory is removed. -/
theorem pre (h : w.lost t = false → w.controls id t = true ∧ w.Tidy id fun _ => False)
    (hi : DiskInv w) : w.controls id t = false ∨ w.stray id = true ∨
      ∀ a data, (a, data) ∈ w.disk.attempts id → w.Cleared id a := by
  cases hl : w.lost t with
  | true => exact .inl (World.controls_of_lost hi hl)
  | false =>
    refine .inr ((h hl).2.imp_right fun h a data ha => ?_)
    exact (h a data ha).resolve_left fun hf => hf

end World.Tidy

/-! ## Cleanup -/

theorem wp_assertLegacyUnreserved {Q : Unit → World → Prop}
    (h : ∀ w', Rely t w w' → Inv w' → Q () w') :
    After t (assertLegacyUnreserved id) Q w := by
  unfold assertLegacyUnreserved
  rw [After, wp_bind]
  exact wp_query fun w₁ h₁ hi => wp_assert fun _ => h w₁ h₁ hi

/-- What the cleanup needs to know of the attempt `a`, `committed` being the object of the file. -/
structure Removable (t : ℕ) (w : World) (id : ℕ) (committed : Option Placement) (a : ℕ) : Prop where
  own : w.Own t id a
  unpublished : committed ≠ some (finalPlacement id (some a)) → w.Unpublished id (some a)
  committed : committed = some (finalPlacement id (some a)) → w.Committed id (some a)

theorem Removable.persists {committed : Option Placement} {a : ℕ}
    (h : Removable t w id committed a) (hp : Persists t w w') : Removable t w' id committed a where
  own := hp.own _ _ h.own
  unpublished hne := hp.unpublished id (some a) (fun _ hn => Option.some.inj hn ▸ h.own)
    (h.unpublished hne)
  committed he := hp.committed _ _ (h.committed he)

/-- An own attempt can be removed once the file of the session has been looked up. -/
theorem Removable.of_find (hi : Inv w) (hk : Known w id s) {a : ℕ} (ho : w.Own t id a) :
    Removable t w id ((w.db.files.find fun _ r => r.uploadId = some id && r.userId = s.userId).bind
      (·.2.placement)) a where
  own := ho
  unpublished hne i r hr hp := by
    obtain ⟨-, -, -, hu⟩ := hi.disk.placed i r id (some a) hr hp
    refine (hi.disk.erased i r hr).resolve_left fun hsome => ?_
    obtain ⟨r', hr'⟩ := Option.isSome_iff_exists.mp hsome
    cases (hi.seen i r' hr').symm.trans hr
    cases hfind : w.db.files.find fun _ r => r.uploadId = some id && r.userId = s.userId with
    | none =>
      have hno := Table.find_none hfind hr'
      simp [hu, hk.owned i r hr hu] at hno
    | some x =>
      obtain ⟨hx, hpx⟩ := Table.find_some hfind
      simp only [Bool.and_eq_true, decide_eq_true_eq] at hpx
      have hxi := hi.published.unique i x.1 r x.2 id hr (hi.seen _ _ hx) hu hpx.1
      rw [← hxi, hr'] at hx
      cases hx
      rw [hfind] at hne
      exact hne hp
  committed he := by
    obtain ⟨x, hx, hp⟩ := Option.bind_eq_some_iff.mp he
    exact ⟨x.1, x.2, hi.seen _ _ (Table.find_some hx).1, hp⟩

/-- **The attempts that are removed are cleared.** -/
theorem wp_removeAttempts {committed : Option Placement} {Q : Unit → World → Prop} :
    ∀ (attempts : List ℕ) {w : World}, Inv w →
    (∀ a ∈ attempts, Removable t w id committed a) →
    (w.lost t = false → w.controls id t = true ∧ w.Tidy id (· ∈ attempts)) →
    (∀ w', Goes t w w' → Inv w' →
      (w'.lost t = false → w'.controls id t = true ∧ w'.Tidy id fun _ => False) → Q () w') →
    After t (removeAttempts id committed attempts) Q w
  | [], w, hi, _, htidy, h => h w (.refl t w) hi fun hl =>
    ⟨(htidy hl).1, (htidy hl).2.mono fun a ha => nomatch ha⟩
  | a :: attempts, w, hi, hrem, htidy, h => by
    have ha := hrem a List.mem_cons_self
    -- Once the attempt is cleared its file goes, and then the others.
    have hrest : ∀ w₁, Goes t w w₁ → Inv w₁ → (w₁.lost t = false →
        (w₁.controls id t = true ∧ w₁.Tidy id (· ∈ a :: attempts)) ∧
          (w₁.stray id = true ∨ w₁.Cleared id a)) →
        After t (do
          onFiles (.removeAttempt id a) fun _ => ()
          removeAttempts id committed attempts) Q w₁ := by
      intro w₁ hg hi₁ hf
      rw [After, wp_bind]
      refine wp_onFiles_goes rfl fun w₂ hatt hi₂ => ⟨?_, fun hg₂ hi₃ => ?_⟩
      · refine ⟨hatt.persists.own _ _ (hg.persists.own _ _ ha.own), ?_⟩
        cases hl : w₂.lost t with
        | true => exact .inl (World.controls_of_lost hi₂.disk hl)
        | false =>
          obtain ⟨⟨hc, -⟩, hcleared⟩ := hf (hatt.live hl)
          rcases hcleared with hs | hcleared
          · exact .inr (.inl (hatt.persists.stray id hs))
          · exact .inr ((hcleared.continues hc (hatt.continues hl)).imp_right .inr)
      · have hgo := hg.trans hg₂
        refine wp_removeAttempts attempts hi₃
          (fun b hb => (hrem b (List.mem_cons_of_mem _ hb)).persists hgo.persists) (fun hl => ?_)
          fun w' hg' => h w' (hgo.trans hg')
        obtain ⟨hc, ht⟩ := World.Tidy.attached (fun h₁ => (hf h₁).1) hi₁.disk hatt hl
        refine ⟨(World.controls_onDisk rfl t).trans hc, ?_⟩
        exact (ht.removeAttempt a).mono fun b hb => List.mem_of_ne_of_mem hb.2 hb.1
    unfold removeAttempts
    split_ifs with hcom
    · rw [After, wp_bind]
      refine wp_onFiles_goes rfl fun w₁ hatt hi₁ => ⟨?_, fun hg hi₂ => ?_⟩
      · have ha₁ := ha.persists hatt.persists
        exact ⟨fun n hn => Option.some.inj hn ▸ ha₁.own, ha₁.unpublished hcom⟩
      · refine hrest _ hg hi₂ fun hl => ⟨?_, .inr (.inl (setAt_self ..))⟩
        obtain ⟨hc, ht⟩ := World.Tidy.attached htidy hi.disk hatt hl
        exact ⟨(World.controls_onDisk rfl t).trans hc, ht.unlink _⟩
    · exact hrest w (.refl t w) hi fun hl =>
        ⟨htidy hl, .inr (.inr (ha.committed (not_not.mp hcom)))⟩

/-- **The cleanup of a session clears all attempts on it**, and finds the file if there is one. -/
theorem wp_cleanupUnpublishedAssembly {Q : Option (ℕ × File) → World → Prop} (hk : Known w id s)
    (hc : w.lost t = false → w.controls id t = true)
    (h : ∀ w' found, Goes t w w' → Inv w' →
      (w'.lost t = false → w'.controls id t = true ∧ w'.Tidy id fun _ => False) → Q found w') :
    After t (cleanupUnpublishedAssembly id s) Q w := by
  unfold cleanupUnpublishedAssembly
  rw [After, wp_bind]
  refine wp_assertLegacyUnreserved fun w₁ h₁ _ => ?_
  rw [wp_bind]
  refine wp_look fun w₂ h₂ hi₂ => ?_
  rw [wp_bind]
  refine wp_query_attached fun w₃ h₃ hl₃ hi₃ => ?_
  have hgo : Goes t w w₃ := (h₁.toContinues.goes.trans h₂.goes).trans h₃.goes
  have hctrl₂ : w₂.lost t = false → w₂.controls id t = true := fun hl =>
    ((h₁.toContinues.trans (h₂.continues hl))).controls (hc ((h₁.toContinues.goes.trans h₂.goes).live hl))
  have hctrl₃ := (h₃.continues hl₃).controls (hctrl₂ (h₃.live hl₃))
  have hk₃ := hk.persists hgo.persists
  rw [wp_bind]
  have hlisted : w₂.Tidy id (· ∈ (w₂.disk.attempts id).map (·.1)) :=
    .inr fun a data ha => .inl (List.mem_map.mpr ⟨_, ha, rfl⟩)
  refine wp_removeAttempts _ hi₃ (fun a ha => ?_)
    (fun _ => ⟨hctrl₃, hlisted.continues hi₂.disk (hctrl₂ (h₃.live hl₃)) (h₃.continues hl₃)⟩)
    fun w₄ hg₄ hi₄ htidy => ?_
  · -- The attempt was listed, so its number is an old one.
    obtain ⟨⟨a', data⟩, hmem, rfl⟩ := List.mem_map.mp ha
    exact .of_find hi₃ hk₃ (World.own_of_controls hi₃.disk hctrl₃
      (lt_of_lt_of_le (hi₂.disk.attempts id a' data hmem) h₃.persists.issued))
  · dsimp only
    split_ifs
    · rw [wp_bind]
      refine wp_onFiles_goes rfl fun w₅ h₅ hi₅ => ⟨⟨(fun a ha => by cases ha), fun i r hr hp => ?_⟩, fun hg₅ hi₆ => ?_⟩
      · obtain ⟨n, hn, -⟩ := hi₅.disk.placed i r id none hr hp
        cases hn
      · refine h _ _ (hgo.trans (hg₄.trans hg₅)) hi₆ fun hl => ?_
        obtain ⟨hc₅, ht₅⟩ := World.Tidy.attached htidy hi₄.disk h₅ hl
        exact ⟨(World.controls_onDisk rfl t).trans hc₅, ht₅.unlink none⟩
    · exact h w₄ _ (hgo.trans hg₄) hi₄ htidy

/-- **The directory of a session can be removed when all attempts on it are cleared.** -/
theorem wp_deleteTempFiles {Q : Unit → World → Prop} (hi : Inv w)
    (htidy : w.lost t = false → w.controls id t = true ∧ w.Tidy id fun _ => False)
    (h : ∀ w', Goes t w w' → Inv w' → Q () w') : After t (deleteTempFiles id) Q w := by
  have hpre : ∀ w', Attached t w w' → Inv w' → w'.controls id t = false ∨ w'.stray id = true ∨
      ∀ a data, (a, data) ∈ w'.disk.attempts id → w'.Cleared id a :=
    fun w' ha hi' => World.Tidy.pre (World.Tidy.attached htidy hi.disk ha) hi'.disk
  unfold deleteTempFiles
  intro n
  dsimp only
  split_ifs
  · exact wp_onFiles_goes rfl fun w₁ ha hi₁ => ⟨hpre w₁ ha hi₁, fun hg hi₂ => h _ hg hi₂⟩
  · rw [wp_bind]
    exact wp_onFiles_goes rfl fun w₁ ha hi₁ => ⟨hpre w₁ ha hi₁, fun _ _ => trivial⟩

end

end HomeCloud
