import HomeCloud.Sql.Condition
import HomeCloud.Statements

/-!
# The password of a share

A password attempt is counted by one UPDATE, whose condition on the lock is joined without
parentheses, so that it applies to other shares too.

* `Db.findShareByToken`, `attempt`, `verifySharePassword`.
* `Isolated`: an attempt concerns its own share only.
* **`verifySharePassword_isolated`**: when it does.
-/

namespace HomeCloud

open Concurrent Sql

/-! ## The attempt -/

/-- The live share with the token, with its number. -/
def Db.findShareByToken (db : Db) (token now : ℕ) : Option (ℕ × ShareLink) := do
  let (id, share) ← db.shareLinks.find fun _ r => r.token = token && r.isActive
  let file ← db.files.get share.fileId
  let user ← db.users.get share.userId
  if share.expiresAt.all (now < ·) && !file.isDeleted && file.userId = share.userId &&
      user.isActive then
    some (id, share)
  else none

/-- The failed attempts after which a share is locked, and for how long. -/
def lockThreshold : ℕ := 5

def lockInterval : ℕ := 15 * 60 * 1000

/-- `"lockedUntil" <= NOW()` -/
def lockPassed (now : ℕ) (r : ShareLink) : SqlBool := r.lockedUntil.map fun time => decide (time ≤ now)

/-- `"id" = :id` joined by `andWhere` with `"lockedUntil" IS NULL OR "lockedUntil" <= NOW()`. -/
def attemptCondition (id now : ℕ) : Condition (ℕ × ShareLink) :=
  Condition.andWhere [[fun r => some (r.1 = id)]]
    [[fun r => some r.2.lockedUntil.isNone], [fun r => lockPassed now r.2]]

/-- The columns that the UPDATE sets. -/
def countAttempt (now : ℕ) (r : ShareLink) : ShareLink :=
  if lockPassed now r = some true then { r with failedAttempts := 1, lockedUntil := none }
  else
    { r with
      failedAttempts := r.failedAttempts + 1
      lockedUntil :=
        if lockThreshold ≤ r.failedAttempts + 1 then some (now + lockInterval) else r.lockedUntil }

/-- The table after the UPDATE. -/
def countAttempts (links : Table ShareLink) (id now : ℕ) : Table ShareLink :=
  links.map fun j r => if (attemptCondition id now).holds (j, r) then countAttempt now r else r

/-- The rows that the UPDATE returns, in the order `scan` in which it visits the rows. -/
def countedRows (links : Table ShareLink) (scan : List ℕ) (id now : ℕ) : List ℕ :=
  scan.filter fun j => (links.get j).any fun r => (attemptCondition id now).holds (j, r)

section

variable (compare : ℕ → ℕ → Bool) (scan : List ℕ) (jsNow dbNow : ℕ)

/-- An attempt on the share that has been read, by the clocks of the server and the database. -/
def attempt (links : Table ShareLink) (id : ℕ) (share : ShareLink) (password : ℕ) :
    Except Err Unit × Table ShareLink :=
  match share.password with
  | none => (.error (.forbidden "Password not required for this share link"), links)
  | some hash =>
    if share.lockedUntil.any (jsNow < ·) then
      (.error (.forbidden "Too many password attempts"), links)
    else
      let counted := countAttempts links id dbNow
      let updatedShare := (countedRows links scan id dbNow).head?.bind counted.get
      if updatedShare.all (lockThreshold ≤ ·.failedAttempts) then
        (.error (.forbidden "Too many password attempts"), counted)
      else if compare password hash then
        if 0 < share.failedAttempts || share.lockedUntil.isSome then
          (.ok (), counted.map fun j r =>
            if j = id then { r with failedAttempts := 0, lockedUntil := none } else r)
        else (.ok (), counted)
      else (.error (.forbidden "Invalid password"), counted)

def verifySharePassword (db : Db) (token password : ℕ) : Except Err Unit × Table ShareLink :=
  match db.findShareByToken token jsNow with
  | none => (.error (.notFound "Share link not found or expired"), db.shareLinks)
  | some (id, share) => attempt compare scan jsNow dbNow db.shareLinks id share password

/-! ## Isolation -/

/-- The attempt changes no other share, and its answer and what becomes of its share are as if there
were no other. -/
structure Isolated (db : Db) (token password : ℕ) : Prop where
  others : ∀ j, (db.findShareByToken token jsNow).all (·.1 ≠ j) = true →
    (verifySharePassword compare scan jsNow dbNow db token password).2.get j = db.shareLinks.get j
  alone : ∀ id share, db.findShareByToken token jsNow = some (id, share) →
    (verifySharePassword compare scan jsNow dbNow db token password).1 =
      (attempt compare scan jsNow dbNow (Table.empty.put id share) id share password).1 ∧
    (verifySharePassword compare scan jsNow dbNow db token password).2.get id =
      (attempt compare scan jsNow dbNow (Table.empty.put id share) id share password).2.get id

/-- The attempt gets as far as to be counted, and no other share has a lock that has passed. -/
def CountsAlone (db : Db) (token : ℕ) : Prop :=
  ∀ id share, db.findShareByToken token jsNow = some (id, share) → share.password.isSome →
    share.lockedUntil.any (jsNow < ·) = false →
    ∀ j r, j ≠ id → db.shareLinks.get j = some r → lockPassed dbNow r ≠ some true

end

/-! ## What the UPDATE applies to -/

section

variable {links : Table ShareLink} {id now j : ℕ} {r share : ShareLink}

/-- **The UPDATE applies to the share when it is not locked, and to every share whose lock has
passed.** -/
theorem attemptCondition_holds : (attemptCondition id now).holds (j, r) = true ↔
    j = id ∧ r.lockedUntil = none ∨ lockPassed now r = some true := by
  rw [Condition.holds_iff]
  simp [attemptCondition, Condition.andWhere]

theorem get_countAttempts (h : links.get j = some r) : (countAttempts links id now).get j =
    some (if (attemptCondition id now).holds (j, r) then countAttempt now r else r) := by
  simp [countAttempts, h]

/-- A share whose lock has passed is changed. -/
theorem countAttempts_ne (h : links.get j = some r) (hp : lockPassed now r = some true) :
    (countAttempts links id now).get j ≠ links.get j := by
  have hl : r.lockedUntil ≠ none := fun hn => by simp [lockPassed, hn] at hp
  have hcount : countAttempt now r = { r with failedAttempts := 1, lockedUntil := none } := if_pos hp
  rw [get_countAttempts h, if_pos (attemptCondition_holds.mpr (.inr hp)), hcount, h]
  intro heq
  exact hl (congrArg ShareLink.lockedUntil (Option.some.inj heq)).symm

/-- A share other than the one in question stays as it is while its lock has not passed. -/
theorem countAttempts_eq (hj : j ≠ id)
    (hp : ∀ r, links.get j = some r → lockPassed now r ≠ some true) :
    (countAttempts links id now).get j = links.get j := by
  cases hr : links.get j with
  | none => simp [countAttempts, hr]
  | some r =>
    have hno : ¬ (attemptCondition id now).holds (j, r) = true := fun h =>
      (attemptCondition_holds.mp h).elim (fun h => hj h.1) (hp r hr)
    rw [get_countAttempts hr, if_neg hno]

/-- When no other lock has passed, the UPDATE returns what it would return if the share were the only
one. -/
theorem countedRows_alone {scan : List ℕ} (h : links.get id = some share)
    (hp : ∀ j r, j ≠ id → links.get j = some r → lockPassed now r ≠ some true) :
    countedRows links scan id now = countedRows (Table.empty.put id share) scan id now := by
  refine List.filter_congr fun j _ => ?_
  by_cases hj : j = id
  · rw [hj, h, Table.get_put_self]
  · rw [Table.get_put_ne _ _ hj, Table.get_empty, Option.any_none]
    cases hr : links.get j with
    | none => rfl
    | some r =>
      have hno : ¬ (attemptCondition id now).holds (j, r) = true := fun h =>
        (attemptCondition_holds.mp h).elim (fun h => hj h.1) (hp j r hj hr)
      simpa using hno

theorem mem_countedRows_alone {scan : List ℕ}
    (h : j ∈ countedRows (Table.empty.put id share) scan id now) : j = id := by
  by_contra hj
  have hany := (List.mem_filter.mp h).2
  rw [Table.get_put_ne _ _ hj, Table.get_empty, Option.any_none] at hany
  cases hany

end

/-! ## When an attempt is isolated -/

section

variable {compare : ℕ → ℕ → Bool} {scan : List ℕ} {jsNow dbNow : ℕ} {db : Db}
  {links : Table ShareLink} {token password id hash j : ℕ} {share : ShareLink}

theorem Db.get_of_findShareByToken (h : db.findShareByToken token jsNow = some (id, share)) :
    db.shareLinks.get id = some share := by
  simp only [Db.findShareByToken, Option.bind_eq_bind, Option.bind_eq_some_iff] at h
  obtain ⟨⟨i, r⟩, hfind, file, -, user, -, hif⟩ := h
  split_ifs at hif
  cases hif
  exact (Table.find_some hfind).1

/-- An attempt that is not counted changes nothing, and looks at no table. -/
theorem attempt_of_not_counted (compare : ℕ → ℕ → Bool) (scan : List ℕ) (dbNow : ℕ)
    (links : Table ShareLink) (id password : ℕ)
    (h : share.password = none ∨ share.lockedUntil.any (jsNow < ·) = true) :
    (attempt compare scan jsNow dbNow links id share password).2 = links ∧
    ∀ links', (attempt compare scan jsNow dbNow links' id share password).1 =
      (attempt compare scan jsNow dbNow links id share password).1 := by
  unfold attempt
  cases hp : share.password with
  | none => exact ⟨rfl, fun _ => rfl⟩
  | some hash =>
    have hl : share.lockedUntil.any (jsNow < ·) = true := h.resolve_left (by simp [hp])
    simp only [hl, if_true]
    exact ⟨trivial, fun _ => trivial⟩

/-- A counted attempt leaves the other shares as the UPDATE does. -/
theorem attempt_others (hp : share.password = some hash)
    (hl : share.lockedUntil.any (jsNow < ·) = false) (hj : j ≠ id) :
    (attempt compare scan jsNow dbNow links id share password).2.get j =
      (countAttempts links id dbNow).get j := by
  simp only [attempt, hp, hl, Bool.false_eq_true, if_false]
  split_ifs
  · rfl
  · simp [hj]
  · rfl
  · rfl

/-- **When no other lock has passed, an attempt is as if its share were the only one.** -/
theorem attempt_alone (h : links.get id = some share)
    (hp : ∀ j r, j ≠ id → links.get j = some r → lockPassed dbNow r ≠ some true) :
    (attempt compare scan jsNow dbNow links id share password).1 =
      (attempt compare scan jsNow dbNow (Table.empty.put id share) id share password).1 ∧
    (attempt compare scan jsNow dbNow links id share password).2.get id =
      (attempt compare scan jsNow dbNow (Table.empty.put id share) id share password).2.get id := by
  have hget : (Table.empty.put id share).get id = links.get id := by rw [Table.get_put_self, h]
  have hrow : (countAttempts links id dbNow).get id =
      (countAttempts (Table.empty.put id share) id dbNow).get id := by
    rw [get_countAttempts h, get_countAttempts (hget.trans h)]
  -- Both return the row of the share, or none.
  have hupdated : (countedRows links scan id dbNow).head?.bind (countAttempts links id dbNow).get =
      (countedRows (Table.empty.put id share) scan id dbNow).head?.bind
        (countAttempts (Table.empty.put id share) id dbNow).get := by
    rw [countedRows_alone h hp]
    cases hhead : (countedRows (Table.empty.put id share) scan id dbNow).head? with
    | none => rfl
    | some j =>
      have hj := mem_countedRows_alone (List.mem_of_mem_head? hhead)
      rw [Option.bind_some, Option.bind_some, hj, hrow]
  unfold attempt
  cases share.password with
  | none => exact ⟨rfl, hget.symm⟩
  | some hash =>
    simp only [hupdated]
    split_ifs
    · exact ⟨rfl, hget.symm⟩
    · exact ⟨rfl, hrow⟩
    · refine ⟨rfl, ?_⟩
      rw [Table.get_map, Table.get_map, hrow]
    · exact ⟨rfl, hrow⟩
    · exact ⟨rfl, hrow⟩

theorem Isolated.countsAlone (h : Isolated compare scan jsNow dbNow db token password) :
    CountsAlone jsNow dbNow db token := by
  intro id share hfind hp hl j r hj hr hpassed
  obtain ⟨hash, hash_eq⟩ := Option.isSome_iff_exists.mp hp
  have hsame := h.others j (by simpa [hfind] using Ne.symm hj)
  simp only [verifySharePassword, hfind] at hsame
  rw [attempt_others hash_eq hl hj] at hsame
  exact countAttempts_ne hr hpassed hsame

theorem CountsAlone.isolated (h : CountsAlone jsNow dbNow db token) :
    Isolated compare scan jsNow dbNow db token password := by
  cases hfind : db.findShareByToken token jsNow with
  | none =>
    refine ⟨fun j _ => ?_, fun id share hf => ?_⟩
    · simp only [verifySharePassword, hfind]
    · rw [hfind] at hf
      cases hf
  | some found =>
    obtain ⟨id, share⟩ := found
    have hget := Db.get_of_findShareByToken hfind
    have hverify : verifySharePassword compare scan jsNow dbNow db token password =
        attempt compare scan jsNow dbNow db.shareLinks id share password := by
      simp only [verifySharePassword, hfind]
    by_cases hcounted : share.password = none ∨ share.lockedUntil.any (jsNow < ·) = true
    · obtain ⟨hlinks, hanswer⟩ := attempt_of_not_counted compare scan dbNow db.shareLinks id
        password hcounted
      refine ⟨fun j _ => by rw [hverify, hlinks], fun id' share' hf => ?_⟩
      cases hfind.symm.trans hf
      refine ⟨by rw [hverify]; exact (hanswer _).symm, ?_⟩
      rw [hverify, hlinks, (attempt_of_not_counted _ _ _ _ _ _ hcounted).1, hget, Table.get_put_self]
    · rw [not_or, Bool.not_eq_true] at hcounted
      obtain ⟨hash, hash_eq⟩ := Option.ne_none_iff_exists'.mp hcounted.1
      have hothers := h id share hfind (by rw [hash_eq]; rfl) hcounted.2
      refine ⟨fun j hj => ?_, fun id' share' hf => ?_⟩
      · have hne : j ≠ id := by
          rintro rfl
          simp [hfind] at hj
        rw [hverify, attempt_others hash_eq hcounted.2 hne]
        exact countAttempts_eq hne fun r hr => hothers j r hne hr
      · cases hfind.symm.trans hf
        rw [hverify]
        exact attempt_alone hget hothers

end

/-- **An attempt is isolated if and only if it is not counted or no other share has a lock that has
passed**, and then two databases with the same share give the same answer and treat it alike. -/
theorem verifySharePassword_isolated (compare : ℕ → ℕ → Bool) (scan : List ℕ) (jsNow dbNow : ℕ)
    (token password : ℕ) :
    (∀ db, Isolated compare scan jsNow dbNow db token password ↔ CountsAlone jsNow dbNow db token) ∧
    ∀ db db' id share, db.findShareByToken token jsNow = some (id, share) →
      db'.findShareByToken token jsNow = some (id, share) →
      CountsAlone jsNow dbNow db token → CountsAlone jsNow dbNow db' token →
      (verifySharePassword compare scan jsNow dbNow db token password).1 =
        (verifySharePassword compare scan jsNow dbNow db' token password).1 ∧
      (verifySharePassword compare scan jsNow dbNow db token password).2.get id =
        (verifySharePassword compare scan jsNow dbNow db' token password).2.get id := by
  refine ⟨fun db => ⟨Isolated.countsAlone, CountsAlone.isolated⟩,
    fun db db' id share hf hf' hc hc' => ?_⟩
  have h : Isolated compare scan jsNow dbNow db token password := hc.isolated
  have h' : Isolated compare scan jsNow dbNow db' token password := hc'.isolated
  replace h := h.alone id share hf
  replace h' := h'.alone id share hf'
  exact ⟨h.1.trans h'.1.symm, h.2.trans h'.2.symm⟩

/-- Two shares: one with four failed attempts, and one whose lock has passed. -/
def twoShares : Db :=
  let user : User := ⟨0, 0, true, 0, 0⟩
  let file : File := ⟨.ofJs [97], none, 0, none, none, false, false, none, none, none, none, 1⟩
  let share (token : ℕ) : ShareLink :=
    { token := token, password := some 7, expiresAt := none, lockedUntil := none, isActive := true,
      failedAttempts := 4, isFolder := false, allowUpload := false, userId := 1, fileId := 1 }
  { Db.empty (Table.empty.insert user) with
    files := Table.empty.insert file
    shareLinks := (Table.empty.insert (share 11)).insert { share 12 with lockedUntil := some 50 } }

/-- The other share's row is returned first, so the fifth attempt on the first share is not refused,
and the other share is unlocked. -/
theorem not_isolated : ¬ ∀ compare scan jsNow dbNow db token password,
    Isolated compare scan jsNow dbNow db token password := by
  intro h
  have hanswer := ((h (fun a b => a == b) [2, 1] 100 100 twoShares 11 7).alone 1
    ⟨11, some 7, none, none, true, 4, false, false, 1, 1⟩ (by decide +kernel)).1
  revert hanswer
  decide +kernel

end HomeCloud
