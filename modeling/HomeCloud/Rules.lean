import HomeCloud.Journal.Changes
import HomeCloud.Statements
import HomeCloud.Uploads.Steps

/-!
# The contract of the services and its rules

* `contract`: what every service keeps and may rely on.
* **`wp_selectForUpdate`**, `wp_query`, **`wp_transaction`**: the rules for statements.
* **`wp_allocateNamespaceName`**, **`wp_updateStorageUsed`**, `wp_decrementStorageUsed`: what the
  shared building blocks establish.
-/

namespace HomeCloud

open Concurrent

/-! ## The contract -/

/-- What a thread establishes before a statement: the parent folder is locked before the names of a
directory are read, all tokens it has found are revoked before it reports so, writes that pass their
constraints are in order, and so are the steps on the files. -/
def Instr.Pre : Instr → ℕ → World → Prop
  | .names q, t, w => ∀ p, q.slot.parentId = some p → w.locks (.folder p) = some t
  | .signOut userId, t, w => w.sweeping t = some (userId, [])
  | .commit tx, t, w => tx.allowed w.db = true → tx.Ok t w
  | .disk op, t, w => op.Pre t w
  | _, _, _ => True

/-- A statement that needs no connection. -/
def Instr.offline : Instr → Bool
  | .disk _ => true
  | _ => false

/-- What a thread has to establish before a statement, which has no effect if it needs a connection
and the one of the thread has broken. -/
def Instr.Due (i : Instr) (t : ℕ) (w : World) : Prop :=
  w.lost t = false ∨ i.offline = true → i.Pre t w

/-- How a statement changes the state. -/
theorem Instr.perform_commit {tx : Tx} {t : ℕ} {w w' : World}
    (h : (Instr.commit tx).perform t w = some w') :
    tx.allowed w.db = true ∧ w.waits tx t = false ∧ w' = (w.write tx t).release t ∨
      tx.allowed w.db = false ∧ w' = w.release t := by
  simp only [Instr.perform] at h
  split_ifs at h with ha hw
  · exact .inl ⟨ha, by simpa using hw, (Option.some.inj h).symm⟩
  · exact .inr ⟨by simpa using ha, (Option.some.inj h).symm⟩

theorem Instr.perform_lock {k : LockKey} {t : ℕ} {w w' : World}
    (h : (Instr.lock k).perform t w = some w') :
    w.locks k = none ∧ w' = w.lock k t ∨ w.locks k = some t ∧ w' = w := by
  simp only [Instr.perform] at h
  split at h
  · exact .inl ⟨‹_›, (Option.some.inj h).symm⟩
  · split_ifs at h with ht
    subst ht
    exact .inr ⟨‹_›, (Option.some.inj h).symm⟩

theorem inv_step {i : Instr} {t : ℕ} {w w' : World} (hi : Inv w) (hp : i.Due t w)
    (he : i.exec t w = some w') : Inv w' := by
  unfold Instr.exec at he
  split_ifs at he with hlost
  · cases he
    cases i with
    | disk op => exact hi.onDisk (hp (.inr rfl))
    | rollback =>
      refine hi.of_db_eq rfl rfl hi.window (hi.disk.of_fences_eq rfl rfl rfl rfl rfl fun t' ht => ?_)
      change (if t' = t then false else w.lost t') = true at ht
      split_ifs at ht
      exact ht
    | _ => exact hi
  · have hl : w.lost t = false := by simpa using hlost
    replace hp := hp (.inl hl)
    cases i with
    | lock k =>
      obtain ⟨hk, rfl⟩ | ⟨-, rfl⟩ := Instr.perform_lock he
      · exact hi.lock hk
      · exact hi
    | fence s b =>
      cases he
      exact hi.takeFence hl s b
    | unfence =>
      cases he
      exact hi.unfence
    | names q =>
      cases he
      exact hi.readNames q hp
    | disk op =>
      cases he
      exact hi.onDisk hp
    | commit tx =>
      obtain ⟨ha, hw, rfl⟩ | ⟨-, rfl⟩ := Instr.perform_commit he
      · have hc : Committing t w tx := ⟨hi, ha, hw, hp ha⟩
        exact (hi.write hc.respects (hi.published.commit hc) (hi.sessions.commit hc)
          (hi.operations.commit hc) (hi.disk.backed.commit hc)).release
      · exact hi.release
    | rollback =>
      cases he
      exact hi.release
    | _ =>
      cases he
      exact hi.of_db_eq rfl rfl hi.window (hi.disk.of_fences_eq rfl rfl rfl rfl rfl fun _ ht => ht)

theorem rely_step {i : Instr} {t t' : ℕ} {w w' : World} (hi : Inv w) (hp : i.Due t w)
    (he : i.exec t w = some w') (hne : t' ≠ t) : Rely t' w w' := by
  unfold Instr.exec at he
  split_ifs at he with hlost
  · cases he
    cases i with
    | disk op => exact World.rely_onDisk hi.disk (hp (.inr rfl)) hne
    | rollback =>
      exact .of_db_eq rfl rfl (fun _ h => h) rfl rfl (fun _ h => h)
        ⟨le_rfl, rfl, rfl, rfl, rfl, rfl⟩ rfl fun h => (if_neg hne).trans h
    | _ => exact .refl t' w
  · have hl : w.lost t = false := by simpa using hlost
    replace hp := hp (.inl hl)
    cases i with
    | lock k =>
      obtain ⟨hk, rfl⟩ | ⟨-, rfl⟩ := Instr.perform_lock he
      · exact World.rely_lock hk
      · exact .refl ..
    | fence s b =>
      cases he
      exact World.rely_takeFence s b hne
    | unfence =>
      cases he
      exact World.rely_unfence hne
    | names q =>
      cases he
      exact World.rely_readNames q hne
    | sweep u =>
      cases he
      exact .of_db_eq rfl rfl (fun _ h => h) rfl (if_neg hne) (fun _ h => h)
        ⟨le_rfl, rfl, rfl, rfl, rfl, rfl⟩ rfl fun h => h
    | signOut u =>
      cases he
      exact .of_db_eq rfl rfl (fun _ h => h) rfl (if_neg hne) (fun _ h => h)
        ⟨le_rfl, rfl, rfl, rfl, rfl, rfl⟩ rfl fun h => h
    | check expires =>
      cases he
      exact .of_db_eq rfl rfl (fun _ h => h) rfl rfl (fun _ h => h)
        ⟨le_rfl, rfl, rfl, rfl, rfl, rfl⟩ (setAt_ne _ _ hne) fun h => h
    | disk op =>
      cases he
      exact World.rely_onDisk hi.disk hp hne
    | commit tx =>
      obtain ⟨ha, hw, rfl⟩ | ⟨-, rfl⟩ := Instr.perform_commit he
      · exact (World.rely_write ((hp ha).respects hi ha hw) (hp ha).operations hne).trans (World.rely_release hne)
      · exact World.rely_release hne
    | rollback =>
      cases he
      exact World.rely_release hne
    | read =>
      cases he
      exact .refl t' _

/-- A thread relies on the others while its connection holds; some things it knows for good. -/
structure Attached (t : ℕ) (w w' : World) : Prop where
  lost : w.lost t = true → w'.lost t = true
  rely : w'.lost t = false → Rely t w w'
  persists : Persists t w w'

theorem Attached.refl (t : ℕ) (w : World) : Attached t w w :=
  ⟨fun h => h, fun _ => .refl t w, .refl t w⟩

theorem Rely.attached {t : ℕ} {w w' : World} (h : Rely t w w') : Attached t w w' :=
  ⟨h.lost, fun _ => h, h.persists⟩

theorem Attached.trans {t : ℕ} {w₁ w₂ w₃ : World} (h : Attached t w₁ w₂)
    (h' : Attached t w₂ w₃) : Attached t w₁ w₃ := by
  refine ⟨fun hl => h'.lost (h.lost hl), fun hl => ?_, h.persists.trans h'.persists⟩
  have h2 : w₂.lost t = false := by
    by_contra hb
    rw [h'.lost (by simpa using hb)] at hl
    cases hl
  exact (h.rely h2).trans (h'.rely hl)

/-- **The contract of the services.** -/
def contract : Contract World Instr Instr.exec where
  inv := Inv
  rely := Attached
  pre := Instr.Due
  rely_refl := Attached.refl
  rely_trans := Attached.trans
  inv_step := inv_step
  rely_step hi hp he hne := (rely_step hi hp he hne).attached

/-! ## Statements -/

section Statements

variable {t : ℕ} {w : World} {α β : Type} {Q : α → World → Prop}

/-- What holds after an operation of `t`, unless it fails. -/
abbrev After (t : ℕ) (p : Op α) (Q : α → World → Prop) (w : World) : Prop :=
  wp contract t p Q (fun _ _ => True) w

/-- A statement whose connection breaks has no effect, so what it does otherwise is enough. -/
theorem wp_statement_attached {i : Instr} {f : ℕ → World → α} (hd : i.offline = false)
    (h : ∀ w₁, Attached t w w₁ → w₁.lost t = false → Inv w₁ → ∀ w₂, i.perform t w₁ = some w₂ →
      i.Pre t w₁ ∧ Q (f t w₁) w₂) :
    After t (statement i f) Q w := by
  intro w₁ hr hi w₂ he
  unfold Instr.exec at he
  split_ifs at he with hlost
  · refine ⟨fun hl => ?_, ?_⟩
    · rw [hlost, hd] at hl
      exact hl.elim nofun nofun
    · dsimp only
      rw [if_pos hlost]
      trivial
  · have hl : w₁.lost t = false := by simpa using hlost
    obtain ⟨hp, hq⟩ := h w₁ hr hl hi w₂ he
    refine ⟨fun _ => hp, ?_⟩
    dsimp only
    rw [if_neg hlost]
    exact hq

theorem wp_statement {i : Instr} {f : ℕ → World → α} (hd : i.offline = false)
    (h : ∀ w₁, Rely t w w₁ → Inv w₁ → ∀ w₂, i.perform t w₁ = some w₂ →
      i.Pre t w₁ ∧ Q (f t w₁) w₂) :
    After t (statement i f) Q w :=
  wp_statement_attached hd fun w₁ ha hl => h w₁ (ha.rely hl)

theorem wp_query_attached {f : World → α}
    (h : ∀ w', Attached t w w' → w'.lost t = false → Inv w' → Q (f w') w') :
    After t (query f) Q w :=
  wp_statement_attached rfl fun w₁ ha hl hi w₂ he => by
    cases he
    exact ⟨trivial, h w₁ ha hl hi⟩

theorem wp_query {f : World → α} (h : ∀ w', Rely t w w' → Inv w' → Q (f w') w') :
    After t (query f) Q w :=
  wp_query_attached fun w' ha hl => h w' (ha.rely hl)

/-- **A row lock.** What was read stays as it is, because the row is locked if there is one. -/
theorem wp_selectForUpdate {k : LockKey} {f : Db → α}
    (h : ∀ w', Rely t w w' → Inv w' → ((w'.db.row k).isSome → w'.locks k = some t) →
      Q (f w'.db) w') :
    After t (selectForUpdate k f) Q w := by
  refine wp_statement rfl fun w₁ hr hi w₂ he => ⟨trivial, ?_⟩
  obtain ⟨hk, rfl⟩ | ⟨hk, rfl⟩ := Instr.perform_lock he
  · have := h (w₁.lock k t) (hr.trans (World.rely_lock hk)) (hi.lock hk) fun hp =>
      World.lock_locks_of_present (by rwa [World.lock_db] at hp)
    rwa [World.lock_db] at this
  · exact h _ hr hi fun _ => hk

theorem wp_lockUser {id : ℕ} {Q : Option User → World → Prop}
    (h : ∀ w' r, Rely t w w' → Inv w' → w'.db.users.get id = r →
      (r.isSome → w'.locks (.user id) = some t) → Q r w') :
    After t (lockUser id) Q w :=
  wp_selectForUpdate fun w' hr hi hk =>
    h w' _ hr hi rfl fun hs => hk (by rwa [Db.row, Option.isSome_map])

theorem wp_lockFolder {id : ℕ} {Q : Option Folder → World → Prop}
    (h : ∀ w' r, Rely t w w' → Inv w' → w'.db.folders.get id = r →
      (r.isSome → w'.locks (.folder id) = some t) → Q r w') :
    After t (lockFolder id) Q w :=
  wp_selectForUpdate fun w' hr hi hk =>
    h w' _ hr hi rfl fun hs => hk (by rwa [Db.row, Option.isSome_map])

theorem wp_lockFile {id : ℕ} {Q : Option File → World → Prop}
    (h : ∀ w' r, Rely t w w' → Inv w' → w'.db.files.get id = r →
      (r.isSome → w'.locks (.file id) = some t) → Q r w') :
    After t (lockFile id) Q w :=
  wp_selectForUpdate fun w' hr hi hk =>
    h w' _ hr hi rfl fun hs => hk (by rwa [Db.row, Option.isSome_map])

theorem wp_lockToken {id : ℕ} {Q : Option RefreshToken → World → Prop}
    (h : ∀ w' r, Rely t w w' → Inv w' → w'.db.refreshTokens.get id = r →
      (r.isSome → w'.locks (.token id) = some t) → Q r w') :
    After t (lockToken id) Q w :=
  wp_selectForUpdate fun w' hr hi hk =>
    h w' _ hr hi rfl fun hs => hk (by rwa [Db.row, Option.isSome_map])

theorem wp_lockSession {id : ℕ} {Q : Option UploadSession → World → Prop}
    (h : ∀ w' r, Rely t w w' → Inv w' → w'.db.uploadSessions.get id = r →
      (r.isSome → w'.locks (.session id) = some t) → Q r w') :
    After t (lockSession id) Q w :=
  wp_selectForUpdate fun w' hr hi hk =>
    h w' _ hr hi rfl fun hs => hk (by rwa [Db.row, Option.isSome_map])

theorem wp_require {e : Err} {o : Option α} (h : ∀ a, o = some a → Q a w) :
    After t (require e o) Q w := by
  cases o with
  | none => trivial
  | some a => exact h a rfl

theorem wp_assert {e : Err} {b : Bool} {Q : Unit → World → Prop} (h : b = true → Q () w) :
    After t (assert e b) Q w := by
  cases b with
  | false => trivial
  | true => exact h rfl

theorem wp_parseDatabaseSize {message : String} {n : ℤ} {Q : ℕ → World → Prop}
    (h : ∀ m : ℕ, (m : ℤ) = n → Q m w) : After t (parseDatabaseSize message n) Q w := by
  unfold parseDatabaseSize
  split_ifs with hn
  · exact h n.toNat (Int.toNat_of_nonneg hn.1)
  · trivial

theorem wp_orRollback {p : Op α} (h : After t p Q w) : After t (orRollback p) Q w := by
  unfold orRollback
  rw [After, wp_tryCatch]
  refine wp_mono (fun _ _ hq => hq) (fun e w' _ => ?_) h
  rw [wp_bind]
  exact fun w₁ _ _ w₂ _ => ⟨fun _ => trivial, trivial⟩

/-- **Writes that are in order can be committed.** -/
theorem wp_commitWith {tx : Tx} {f : World → α}
    (h : ∀ w', Attached t w w' → w'.lost t = false → Inv w' → tx.allowed w'.db = true →
      tx.Ok t w' ∧ (Committing t w' tx → Inv ((w'.write tx t).release t) →
        Q (f w') ((w'.write tx t).release t))) :
    After t (commitWith tx f) Q w := by
  intro w₁ hr hi w₂ he
  unfold Instr.exec at he
  split_ifs at he with hlost
  · refine ⟨fun hl => ?_, ?_⟩
    · rw [hlost] at hl
      exact hl.elim nofun nofun
    · dsimp only
      rw [if_pos hlost]
      trivial
  · have hl : w₁.lost t = false := by simpa using hlost
    have hpre : (Instr.commit tx).Due t w₁ := fun _ ha => (h w₁ hr hl hi ha).1
    have hi₂ : Inv w₂ := inv_step hi hpre (by rw [Instr.exec, if_neg hlost, he])
    refine ⟨hpre, ?_⟩
    dsimp only
    rw [if_neg hlost]
    obtain ⟨ha, hw, rfl⟩ | ⟨ha, -⟩ := Instr.perform_commit he
    · rw [if_pos ha, wp_pick]
      intro n
      split_ifs
      · obtain ⟨hok, hq⟩ := h w₁ hr hl hi ha
        exact hq ⟨hi, ha, hw, hok⟩ hi₂
      · trivial
    · rw [if_neg (by simp [ha])]
      trivial

theorem wp_mayFail {e : Err} {Q : Unit → World → Prop} (h : Q () w) :
    After t (mayFail e) Q w := by
  unfold mayFail
  intro n
  dsimp only
  split_ifs
  · exact h
  · trivial

/-- **A step on the files**, which takes effect whether the connection holds or not. -/
theorem wp_onFiles {op : DiskOp} {f : World → α}
    (h : ∀ w', Attached t w w' → Inv w' → op.Pre t w' ∧ Q (f w') (w'.onDisk op t)) :
    After t (onFiles op f) Q w := by
  unfold onFiles
  rw [After, wp_bind]
  refine wp_mayFail ?_
  rw [wp_bind]
  intro w₁ hr hi w₂ he
  obtain ⟨hpre, hq⟩ := h w₁ hr hi
  have he₂ : w₁.onDisk op t = w₂ := by
    unfold Instr.exec at he
    split_ifs at he <;> exact Option.some.inj he
  subst he₂
  refine ⟨fun _ => hpre, ?_⟩
  dsimp only
  rw [wp_ret, wp_bind]
  exact wp_mayFail hq

theorem wp_look {f : World → α} (h : ∀ w', Attached t w w' → Inv w' → Q (f w') w') :
    After t (onFiles .look f) Q w :=
  wp_onFiles fun w' ha hi => ⟨trivial, by rw [World.onDisk_look]; exact h w' ha hi⟩

theorem wp_ignoreFailure {p : Op Unit} {Q : Unit → World → Prop}
    (h : wp contract t p Q (fun _ w' => Q () w') w) : After t (ignoreFailure p) Q w := by
  unfold ignoreFailure
  rw [After, wp_tryCatch]
  exact h

/-- The writes `tx` will be in order when `t` commits them. -/
def Ready (t : ℕ) (tx : Tx) (w : World) : Prop :=
  ∀ w', Attached t w w' → w'.lost t = false → Inv w' → tx.allowed w'.db = true → tx.Ok t w'

theorem Ready.intro {tx : Tx}
    (h : ∀ w', Rely t w w' → Inv w' → tx.allowed w'.db = true → tx.Ok t w') : Ready t tx w :=
  fun w' ha hl => h w' (ha.rely hl)

theorem Ready.none : Ready t .none w := fun _ _ _ _ _ => trivial

theorem Ready.attached {tx : Tx} {w' : World} (h : Ready t tx w) (ha : Attached t w w') :
    Ready t tx w' := fun w'' ha' => h w'' (ha.trans ha')

/-- **A transaction is safe when its writes are in order by the time it commits**, and what it leaves
behind is seen in the state right after. -/
theorem wp_transaction_post {body : Op (Tx × α)}
    (h : After t body (fun r w' => Ready t r.1 w' ∧
      ∀ w'', Rely t w' w'' → w''.lost t = false → Committing t w'' r.1 →
        Inv ((w''.write r.1 t).release t) → Q r.2 ((w''.write r.1 t).release t)) w) :
    After t (transaction body) Q w := by
  unfold transaction
  rw [After, wp_bind]
  refine wp_mono (fun r w' hw => ?_) (fun _ _ _ => trivial) (wp_orRollback h)
  rw [wp_bind]
  exact wp_orRollback (wp_commitWith fun w'' ha hl hi hallowed =>
    ⟨hw.1 w'' ha hl hi hallowed, hw.2 w'' (ha.rely hl) hl⟩)

/-- The same when what is returned is read at the commit. -/
theorem wp_transactionWith_post {body : Op (Tx × (World → α))}
    (h : After t body (fun r w' => Ready t r.1 w' ∧
      ∀ w'', Rely t w' w'' → w''.lost t = false → Committing t w'' r.1 →
        Q (r.2 w'') ((w''.write r.1 t).release t)) w) :
    After t (transactionWith body) Q w := by
  unfold transactionWith
  rw [After, wp_bind]
  refine wp_mono (fun r w' hw => ?_) (fun _ _ _ => trivial) (wp_orRollback h)
  exact wp_orRollback (wp_commitWith fun w'' ha hl hi hallowed =>
    ⟨hw.1 w'' ha hl hi hallowed, fun hc _ => hw.2 w'' (ha.rely hl) hl hc⟩)

theorem wp_transactionWith {body : Op (Tx × (World → α))}
    (h : After t body (fun r w' => Ready t r.1 w') w) :
    Safe contract t (transactionWith body) w :=
  wp_transactionWith_post (wp_mono (fun _ _ hr => ⟨hr, fun _ _ _ _ => trivial⟩) (fun _ _ _ => trivial) h)

theorem wp_transaction {body : Op (Tx × α)}
    (h : After t body (fun r w' => Ready t r.1 w') w) :
    Safe contract t (transaction body) w := by
  unfold transaction
  rw [Safe, wp_bind]
  refine wp_mono (fun r w' hw => ?_) (fun _ _ _ => trivial) (wp_orRollback h)
  rw [wp_bind]
  exact wp_orRollback (wp_commitWith fun w'' ha hl hi hallowed =>
    ⟨hw w'' ha hl hi hallowed, fun _ _ => trivial⟩)

end Statements

/-! ## Names -/

section Names

variable {t : ℕ} {w w' : World} {k : Slot} {name : DbText} {c : NameChoice} {exempt : List Entry}

theorem Settled.keeps (h : Settled t w k) (hk : Keeps t w w') : Settled t w' k := fun p hp => by
  obtain ⟨hl, q, hq, hu⟩ := h p hp
  exact ⟨hk.locks _ hl, q, hk.folders p q hl hq, hu⟩

/-- A chosen name stays chosen. -/
theorem Chosen.follows (h : Chosen t w k name c exempt) (hr : Follows t w w') :
    Chosen t w' k name c exempt where
  slot := h.slot
  name := h.name
  window := hr.window.trans h.window
  settled := h.settled.keeps hr.keeps
  fresh hres e n he hn := h.fresh (hr.reserved k hres).1 e n he ((hr.reserved k hres).2 e n hn)

theorem Chosen.rely (h : Chosen t w k name c exempt) (hr : Rely t w w') :
    Chosen t w' k name c exempt := h.follows hr.toFollows

/-- The entries that a name query leaves out. -/
def exemptEntries (excludeFile excludeFolder : Option ℕ) : List Entry :=
  (excludeFile.map Entry.file).toList ++ (excludeFolder.map Entry.folder).toList

/-- The query finds the name of every live entry that it does not leave out. -/
theorem Db.Named.mem_occupied {db : Db} {q : NameQuery} {e : Entry} {n : DbText}
    (hn : db.Named q.slot e n) (he : e ∉ exemptEntries q.excludeFile q.excludeFolder) :
    n.val ∈ db.occupied q := by
  simp only [exemptEntries, List.mem_append, Option.mem_toList, Option.map_eq_some_iff, not_or,
    not_exists, not_and] at he
  cases e with
  | file i =>
    obtain ⟨r, hr, hs⟩ := Option.bind_eq_some_iff.mp hn
    obtain ⟨-, hd, hk, hname⟩ := File.shown_eq_some hs
    have hx : q.excludeFile ≠ some i := fun h => he.1 i h rfl
    refine List.mem_append_left _ (List.mem_filterMap.mpr ⟨i, ?_, by rw [hr, ← hname]; rfl⟩)
    exact Table.mem_select.mpr ⟨r, hr, by simp [hk, hd, hx]⟩
  | folder i =>
    obtain ⟨r, hr, hs⟩ := Option.bind_eq_some_iff.mp hn
    obtain ⟨hd, hk, hname⟩ := Folder.shown_eq_some hs
    have hx : q.excludeFolder ≠ some i := fun h => he.2 i h rfl
    refine List.mem_append_right _ (List.mem_filterMap.mpr ⟨i, ?_, by rw [hr, ← hname]; rfl⟩)
    exact Table.mem_select.mpr ⟨r, hr, by simp [hk, hd, hx]⟩

/-- Reading the names of a settled directory gives a chosen name. -/
theorem chosen_readNames {q : NameQuery} (h : Settled t w q.slot) (hc : q.choose w.db = some c) :
    Chosen t (w.readNames q t) q.slot (.ofJs c.chosen) c
      (exemptEntries q.excludeFile q.excludeFolder) := by
  obtain ⟨n, hn, rfl⟩ := Option.map_eq_some_iff.mp hc
  exact
    { slot := rfl
      name := rfl
      window := by simp only [World.readNames, if_pos, hc]
      settled := h
      fresh := fun _ e n' he hn' heq => by
        have hmem := hn'.mem_occupied he
        rw [heq] at hmem
        exact chooseName_free hn hmem }

/-- **The name that `allocateNamespaceName` returns is chosen**, and nothing else has changed. -/
theorem wp_allocateNamespaceName_continues {userId : ℕ} {parentId : Option ℕ}
    {requested : JsString} {kind : EntryKind} {excludeFile excludeFolder : Option ℕ}
    {Q : NameChoice → World → Prop}
    (h : ∀ w' c, Continues t w w' → Inv w' →
      Chosen t w' ⟨userId, parentId⟩ (.ofJs c.chosen) c (exemptEntries excludeFile excludeFolder) →
      Q c w') :
    After t (allocateNamespaceName userId parentId requested kind excludeFile excludeFolder) Q w := by
  -- From a settled directory on, all that is left is the query.
  have hread : ∀ w₁, Continues t w w₁ → Settled t w₁ ⟨userId, parentId⟩ →
      After t (do
        let choice ← readNames ⟨⟨userId, parentId⟩, kind, requested, excludeFile, excludeFolder⟩
        require (.conflict "Destination name space exhausted") choice) Q w₁ := by
    intro w₁ hk hs
    rw [After, wp_bind]
    refine wp_statement rfl fun w₂ hr hi w₃ hx => ?_
    cases hx
    have hs₂ := hs.keeps hr.keeps
    refine ⟨fun p hp => (hs₂ p hp).1, wp_require fun c hc => ?_⟩
    exact h _ c (hk.trans (hr.toContinues.trans (World.continues_readNames _)))
      (hi.readNames _ fun p hp => (hs₂ p hp).1) (chosen_readNames hs₂ hc)
  unfold allocateNamespaceName
  cases parentId with
  | none => exact hread w (.refl t w) fun p hp => by cases hp
  | some p =>
    simp only []
    rw [After, wp_bind]
    refine wp_lockFolder fun w₁ r hr hi hrow hl => ?_
    rw [wp_bind]
    refine wp_assert fun hb => ?_
    refine hread w₁ hr.toContinues fun p' hp' => ?_
    cases hp'
    cases r with
    | none => cases hb
    | some q =>
      simp only [Option.any_some, Bool.and_eq_true, decide_eq_true_eq, Bool.not_eq_true'] at hb
      exact ⟨hl rfl, q, hrow, hb.1, hb.2⟩

theorem wp_allocateNamespaceName {userId : ℕ} {parentId : Option ℕ} {requested : JsString}
    {kind : EntryKind} {excludeFile excludeFolder : Option ℕ} {Q : NameChoice → World → Prop}
    (h : ∀ w' c, Keeps t w w' → Inv w' →
      Chosen t w' ⟨userId, parentId⟩ (.ofJs c.chosen) c (exemptEntries excludeFile excludeFolder) →
      Q c w') :
    After t (allocateNamespaceName userId parentId requested kind excludeFile excludeFolder) Q w :=
  wp_allocateNamespaceName_continues fun w' c hc => h w' c hc.keeps

end Names

/-! ## Storage -/

section Storage

variable {t : ℕ} {w w' : World} {u bytes : ℕ}

theorem Charged.keeps (h : Charged t w u bytes) (hk : Keeps t w w') : Charged t w' u bytes where
  user := hk.grows.users u h.user
  locked hb := hk.locks _ (h.locked hb)
  fits hb := by
    obtain ⟨r, hr, hf⟩ := h.fits hb
    exact ⟨r, hk.users u r (h.locked hb) hr, hf⟩

theorem Refunded.keeps (h : Refunded t w u bytes) (hk : Keeps t w w') : Refunded t w' u bytes where
  locked := hk.locks _ h.locked
  covered hb := by
    obtain ⟨r, hr, hf⟩ := h.covered hb
    exact ⟨r, hk.users u r h.locked hr, hf⟩

/-- **After `updateStorageUsed` the charge fits and will still fit at the commit.** -/
theorem wp_updateStorageUsed {Q : Unit → World → Prop}
    (hu : bytes ≠ 0 ∨ (w.db.users.get u).isSome)
    (h : ∀ w', Rely t w w' → Charged t w' u bytes → Q () w') :
    After t (updateStorageUsed u bytes) Q w := by
  unfold updateStorageUsed
  split_ifs with hb
  · exact h w (.refl t w)
      ⟨hu.resolve_left (not_not.mpr hb), fun hne => absurd hb hne, fun hne => absurd hb hne⟩
  · rw [After, wp_bind]
    refine wp_lockUser fun w₁ r hr hi hrow hl => ?_
    cases r with
    | none => trivial
    | some r =>
      simp only []
      split_ifs with hfit
      · exact h w₁ hr ⟨by rw [hrow]; rfl, fun _ => hl rfl, fun _ => ⟨r, hrow, hfit⟩⟩
      · rw [wp_bind]
        refine wp_query fun w₂ hr₂ hi₂ => ?_
        rw [wp_bind]
        refine wp_require fun r₂ _ => ?_
        split_ifs <;> trivial

/-- **After `decrementStorageUsed` the refund is covered and will still be at the commit.** -/
theorem wp_decrementStorageUsed {Q : Unit → World → Prop}
    (hu : w.locks (.user u) = some t)
    (h : ∀ w', Rely t w w' → Refunded t w' u bytes → Q () w') :
    After t (decrementStorageUsed u bytes) Q w := by
  unfold decrementStorageUsed
  split_ifs with hb
  · exact h w (.refl t w) ⟨hu, fun hne => absurd hb hne⟩
  · rw [After, wp_bind]
    refine wp_lockUser fun w₁ r hr hi hrow hl => ?_
    cases r with
    | none => trivial
    | some r =>
      simp only []
      split_ifs with hfit
      · exact h w₁ hr ⟨hr.keeps.locks _ hu, fun _ => ⟨r, hrow, hfit⟩⟩
      · rw [wp_bind]
        refine wp_query fun w₂ hr₂ hi₂ => ?_
        rw [wp_bind]
        refine wp_require fun r₂ _ => ?_
        split_ifs <;> trivial

end Storage

end HomeCloud
