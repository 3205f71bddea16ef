import HomeCloud.Statements

/-!
# The cleanup of expired sessions

One run over the sessions of both workspaces, in which any step for any session may fail.

* `cleanupSession`: the transaction for a session of the legacy workspace; `abortUpload`: the cancellation of
  one on the SSD.
* `cleanupExpiredSessions`: the run.
* `Throws`, `Refused`: when the cleanup of a session fails by itself.
* `Isolated`: the others are cleaned up and the rest is as before.
* **`isolated_iff`**: when a run is so; `not_isolated_of_reserved`.
-/

namespace HomeCloud

namespace Expiry

/-! ## Sessions -/

/-- What there is on disk of a session: the attempts at assembling it, its staged files, and the objects that
were made of it, in an attempt or without one. -/
structure Disk where
  attempts : List ℕ
  staged : List ℕ
  objects : List (Option ℕ)
  deriving DecidableEq

/-- A session with its chunks, whether a finalization of it is pending, and the object of the file that it
became. -/
structure Session where
  userId : ℕ
  filename : JsString
  totalSize : ℕ
  workspaceId : UploadWorkspace
  origin : UploadOrigin
  expectedSha256 : Option JsString
  status : UploadStatus
  expiresAt : Option ℕ
  chunks : List ℕ
  pending : Bool
  committed : Option (Option ℕ)
  disk : Disk
  deriving DecidableEq

def Session.active (s : Session) : Bool := s.status = .pending || s.status = .uploading

/-- The sessions by number, in the order in which the database lists them. -/
structure Sessions where
  get : ℕ → Option Session
  order : List ℕ
  nodup : order.Nodup
  listed : ∀ id, (get id).isSome → id ∈ order

namespace Sessions

variable (S : Sessions)

/-- Writes what has become of a session. -/
def put (id : ℕ) (row : Option Session) : Sessions where
  get j := if j = id ∧ id ∈ S.order then row else S.get j
  order := S.order
  nodup := S.nodup
  listed j hj := by
    split_ifs at hj with h
    · exact h.1 ▸ h.2
    · exact S.listed j hj

def select (p : Session → Bool) : List ℕ := S.order.filter fun id => (S.get id).any p

/-- The sum of the sizes of the sessions that satisfy `p`. -/
def total (p : ℕ → Session → Bool) : ℕ :=
  (S.order.map fun id => ((S.get id).filter (p id)).elim 0 Session.totalSize).sum

/-- What counts against the quota of a user besides the files. -/
def activeTotal (userId : ℕ) : ℕ := S.total fun _ s => s.userId = userId && s.active

end Sessions

/-! ## What may fail -/

inductive Step where
  | begin
  | fence
  | find
  | workspace
  | operations
  | list
  | file
  | unlink (attempt : Option ℕ)
  | remove (attempt : ℕ)
  | directory
  | chunks
  | row
  | commit
  | acknowledge
  | lock
  | session
  | settings
  | reload
  | chunk (i : ℕ)
  | sync
  deriving DecidableEq

/-- What goes wrong for a session: whether it is being finalized, the steps that fail, and what a removal of
its directory that fails leaves. -/
structure Faults where
  busy : Bool
  fails : Step → Bool
  left : Disk → Disk

/-- The end of a transaction. The COMMIT may fail before it takes effect and after that. -/
def commit {α : Type} (f : Faults) (a : α) (before after : Option Session) : Except Err α × Option Session :=
  if f.fails .commit then (.error (.database .connectionLost), before)
  else if f.fails .acknowledge then (.error (.database .connectionLost), after)
  else (.ok a, after)

/-! ## The legacy workspace -/

/-- Removes the attempts and their objects, except that of the file. -/
def removeAttempts (f : Faults) (committed : Option (Option ℕ)) : List ℕ → Disk → Except Err Unit × Disk
  | [], disk => (.ok (), disk)
  | a :: attempts, disk =>
    if committed ≠ some (some a) ∧ f.fails (.unlink (some a)) then (.error .filesystem, disk)
    else
      let disk := if committed ≠ some (some a) then { disk with objects := disk.objects.filter (· ≠ some a) } else disk
      if f.fails (.remove a) then (.error .filesystem, disk)
      else removeAttempts f committed attempts { disk with attempts := disk.attempts.filter (· ≠ a) }

/-- Removes what was assembled and not published. -/
def cleanupUnpublishedAssembly (f : Faults) (s : Session) : Except Err Unit × Disk :=
  if f.fails .operations then (.error (.database .connectionLost), s.disk)
  else if s.pending then (.error (.unavailable "Upload recovery requires operator inspection"), s.disk)
  else if s.filename.isEmpty then (.ok (), s.disk)
  else if f.fails .list then (.error .filesystem, s.disk)
  else if f.fails .file then (.error (.database .connectionLost), s.disk)
  else
    match removeAttempts f s.committed s.disk.attempts s.disk with
    | (.error e, disk) => (.error e, disk)
    | (.ok (), disk) =>
      if s.committed.isSome then (.ok (), disk)
      else if f.fails (.unlink none) then (.error .filesystem, disk)
      else (.ok (), { disk with objects := disk.objects.filter (· ≠ none) })

/-- The transaction for one session: how many it has removed, and what has become of it. -/
def cleanupSession (f : Faults) (now : ℕ) (row : Option Session) : Except Err ℕ × Option Session :=
  if f.fails .begin || f.fails .fence then (.error (.database .connectionLost), row)
  else if f.busy then commit f 0 row row
  else if f.fails .find then (.error (.database .connectionLost), row)
  else
    match row with
    | none => commit f 0 none none
    | some s =>
      if f.fails .workspace then (.error (.unavailable "Upload workspace unavailable"), some s)
      else
        let terminal := s.status = .completed || s.status = .aborted
        let expired := s.expiresAt.any (· < now)
        if !terminal && !expired then commit f 0 (some s) (some s)
        else
          match cleanupUnpublishedAssembly f s with
          | (.error e, disk) => (.error e, some { s with disk := disk })
          | (.ok (), disk) =>
            if f.fails .directory then (.error .filesystem, some { s with disk := f.left disk })
            else
              let cleaned := { s with disk := { disk with attempts := [], staged := [] } }
              if f.fails .chunks || (!terminal && f.fails .row) then (.error (.database .connectionLost), some cleaned)
              else if terminal then commit f 0 (some cleaned) (some { cleaned with chunks := [] })
              else commit f 1 (some cleaned) none

/-! ## The SSD -/

/-- The chunks of an aborted session go, except those that cannot be removed. -/
def removeChunks (f : Faults) (s : Session) : Except Err Unit × Option Session :=
  if f.fails .reload || f.fails .list then (.error (.database .connectionLost), some s)
  else
    let kept := s.chunks.filter fun i => f.fails (.chunk i)
    let removed := s.chunks.filter fun i => !f.fails (.chunk i)
    let s := { s with chunks := kept, disk := { s.disk with staged := s.disk.staged.filter (· ∉ removed) } }
    if f.fails .sync then (.error .filesystem, some s) else (.ok (), some s)

/-- The cancellation of a session that has expired. -/
def abortUpload (enabled : Bool) (f : Faults) (now : ℕ) (row : Option Session) : Except Err Unit × Option Session :=
  if !enabled then (.error (.unavailable "SSD uploads are disabled"), row)
  else if f.fails .lock then (.error (.unavailable "SSD workspace unavailable or busy"), row)
  else if f.fails .session then (.error (.database .connectionLost), row)
  else
    match row.filter fun s => s.workspaceId = .ssd && s.origin = .owner with
    | none => (.error (.notFound "Upload session not found"), row)
    | some s =>
      if !s.expectedSha256.any (isHex 64) then
        (.error (.unavailable "SSD session has no durable whole-file SHA256"), some s)
      else if f.fails .workspace then (.error (.unavailable "SSD workspace is not enrolled"), some s)
      else if f.fails .begin then (.error (.database .connectionLost), some s)
      else if f.fails .settings then (.error (.unavailable "Durable database settings required"), some s)
      else if f.fails .find then (.error (.database .connectionLost), some s)
      else if !s.expiresAt.any (· ≤ now) then commit f () (some s) (some s)
      else if s.status = .completed then (.error (.badRequest "Cannot abort a completed upload"), some s)
      else if f.fails .operations then (.error (.database .connectionLost), some s)
      else if s.pending then (.error (.unavailable "Upload finalization is reserved; recovery required"), some s)
      else if f.fails .row then (.error (.database .connectionLost), some s)
      else
        match commit f () (some s) (some { s with status := .aborted }) with
        | (.error e, row) => (.error e, row)
        | (.ok (), _) => removeChunks f { s with status := .aborted }

/-! ## The run -/

/-- What a run meets: whether there is an SSD, the times at which it looks at the clock, and what goes wrong. -/
structure Env where
  enabled : Bool
  clock : ℕ → ℕ
  asked : ℕ
  aborting : ℕ → ℕ
  faults : ℕ → Faults
  later : ∀ id, asked ≤ aborting id

variable (env : Env)

/-- The loop over the sessions of the legacy workspace. -/
def cleanupSessions : List ℕ → Sessions → Except Err ℕ × Sessions
  | [], S => (.ok 0, S)
  | id :: ids, S =>
    match cleanupSession (env.faults id) (env.clock id) (S.get id) with
    | (.error e, row) => (.error e, S.put id row)
    | (.ok n, row) =>
      match cleanupSessions ids (S.put id row) with
      | (.error e, S') => (.error e, S')
      | (.ok cleaned, S') => (.ok (n + cleaned), S')

/-- The loop over the sessions on the SSD, which goes on after a failure. -/
def abortSessions : List ℕ → Sessions → ℕ × Sessions
  | [], S => (0, S)
  | id :: ids, S =>
    match abortUpload env.enabled (env.faults id) (env.aborting id) (S.get id) with
    | (.error _, row) => abortSessions ids (S.put id row)
    | (.ok (), row) =>
      let (cleaned, S') := abortSessions ids (S.put id row)
      (cleaned + 1, S')

/-- The sessions that the cleanup of the SSD finds. -/
def Env.expired (S : Sessions) : List ℕ :=
  S.select fun s => s.workspaceId = .ssd && s.active && s.expiresAt.any (· ≤ env.asked)

/-- `SsdUploadsService.cleanupExpiredSessions`. -/
def ssdCleanupExpiredSessions (S : Sessions) : ℕ × Sessions :=
  if !env.enabled then (0, S) else abortSessions env ((env.expired S).take 128) S

/-- `UploadsService.cleanupExpiredSessions`. -/
def cleanupExpiredSessions (S : Sessions) : Except Err ℕ × Sessions :=
  let sessions := S.select fun s => s.active
  match cleanupSessions env (sessions.filter fun id => (S.get id).any (·.workspaceId ≠ .ssd)) S with
  | (.error e, S') => (.error e, S')
  | (.ok cleaned, S') =>
    if env.enabled then
      let (aborted, S'') := ssdCleanupExpiredSessions env S'
      (.ok (cleaned + aborted), S'')
    else (.ok cleaned, S')

/-! ## When the cleanup of a session fails -/

/-- An attempt cannot be removed, or its object. -/
def AttemptsFail (f : Faults) (committed : Option (Option ℕ)) (attempts : List ℕ) : Prop :=
  ∃ a ∈ attempts, (committed ≠ some (some a) ∧ f.fails (.unlink (some a)) = true) ∨ f.fails (.remove a) = true

/-- A finalization of the session is pending, or what was assembled cannot be removed. -/
def AssemblyFails (f : Faults) (s : Session) : Prop :=
  f.fails .operations = true ∨ s.pending = true ∨
    (s.filename ≠ [] ∧ (f.fails .list = true ∨ f.fails .file = true ∨ AttemptsFail f s.committed s.disk.attempts ∨
      (s.committed = none ∧ f.fails (.unlink none) = true)))

/-- The transaction for a session of the legacy workspace fails. -/
def Throws (f : Faults) (now : ℕ) (s : Session) : Prop :=
  f.fails .begin = true ∨ f.fails .fence = true ∨ f.fails .commit = true ∨ f.fails .acknowledge = true ∨
    (f.busy = false ∧ (f.fails .find = true ∨ f.fails .workspace = true ∨
      (s.expiresAt.any (· < now) = true ∧
        (AssemblyFails f s ∨ f.fails .directory = true ∨ f.fails .chunks = true ∨ f.fails .row = true))))

/-- A session on the SSD cannot be marked as aborted. -/
def Refused (enabled : Bool) (f : Faults) (s : Session) : Prop :=
  enabled = false ∨ s.origin ≠ .owner ∨ s.expectedSha256.any (isHex 64) = false ∨ s.pending = true ∨
    ∃ step ∈ [Step.lock, .session, .workspace, .begin, .settings, .find, .operations, .row, .commit],
      f.fails step = true

/-- The session has expired by the time at which the run looks at it. -/
def Env.due (id : ℕ) (s : Session) : Bool :=
  s.active && match s.workspaceId with
    | .legacy => s.expiresAt.any (· < env.clock id)
    | .ssd => s.expiresAt.any (· ≤ env.asked)

/-- The cleanup of the session fails by itself, or leaves it to someone who is finalizing it. -/
def Env.Fails (id : ℕ) (s : Session) : Prop :=
  match s.workspaceId with
  | .legacy => (env.faults id).busy = true ∨ Throws (env.faults id) (env.clock id) s
  | .ssd => Refused env.enabled (env.faults id) s

/-- The session has been removed, or aborted. -/
def Cleaned (s : Session) (row : Option Session) : Prop :=
  match s.workspaceId with
  | .legacy => row = none
  | .ssd => ∃ s', row = some s' ∧ s'.status = .aborted

/-- **What a run makes of the sessions**: it cleans up those that have expired and whose own cleanup does not fail,
it leaves those that have not expired as they are, and what counts for a user whose cleanups do not fail is what
has not expired. -/
structure Isolated (S S' : Sessions) : Prop where
  cleaned : ∀ id s, S.get id = some s → env.due id s = true → ¬env.Fails id s → Cleaned s (S'.get id)
  kept : ∀ id s, S.get id = some s → env.due id s = false → S'.get id = some s
  quota : ∀ userId, (∀ id s, S.get id = some s → s.userId = userId → env.due id s = true → ¬env.Fails id s) →
    S'.activeTotal userId = S.total fun id s => s.userId = userId && s.active && !env.due id s

/-- No cleanup that fails stands in the way of another: a transaction that fails comes after the sessions of the
legacy workspace that can be cleaned up, and there is none if one on the SSD can; these are among the first 128. -/
def Unblocked (S : Sessions) : Prop :=
  ∀ id s, S.get id = some s → env.due id s = true → ¬env.Fails id s →
    (∀ other s', S.get other = some s' → s'.active = true → s'.workspaceId = .legacy →
      Throws (env.faults other) (env.clock other) s' → s.workspaceId = .legacy ∧ [id, other].Sublist S.order) ∧
    (s.workspaceId = .ssd → id ∈ (env.expired S).take 128)

/-! ## One session -/

section Session

variable {f : Faults} {now : ℕ} {s : Session}

theorem commit_cases {α : Type} (f : Faults) (a : α) (before after : Option Session) :
    (∃ e, (commit f a before after).1 = .error e ∧
      ((f.fails .commit = true ∧ (commit f a before after).2 = before) ∨
        (f.fails .acknowledge = true ∧ (commit f a before after).2 = after))) ∨
    (f.fails .commit = false ∧ f.fails .acknowledge = false ∧ commit f a before after = (.ok a, after)) := by
  unfold commit
  cases hcommit : f.fails .commit with
  | true => exact .inl ⟨_, rfl, .inl ⟨rfl, rfl⟩⟩
  | false =>
    cases hack : f.fails .acknowledge with
    | true => exact .inl ⟨_, rfl, .inr ⟨rfl, rfl⟩⟩
    | false => exact .inr ⟨rfl, rfl, rfl⟩

theorem removeAttempts_iff (committed : Option (Option ℕ)) (attempts : List ℕ) (disk : Disk) :
    (∃ e, (removeAttempts f committed attempts disk).1 = .error e) ↔ AttemptsFail f committed attempts := by
  induction attempts generalizing disk with
  | nil => exact ⟨fun ⟨_, he⟩ => (nomatch he), fun ⟨_, ha, _⟩ => absurd ha List.not_mem_nil⟩
  | cons a attempts ih =>
    unfold removeAttempts AttemptsFail
    rw [List.exists_mem_cons_iff]
    by_cases hunlink : committed ≠ some (some a) ∧ f.fails (.unlink (some a)) = true
    · rw [if_pos hunlink]
      exact ⟨fun _ => .inl (.inl hunlink), fun _ => ⟨_, rfl⟩⟩
    · rw [if_neg hunlink]
      dsimp only
      by_cases hremove : f.fails (.remove a) = true
      · rw [if_pos hremove]
        exact ⟨fun _ => .inl (.inr hremove), fun _ => ⟨_, rfl⟩⟩
      · rw [if_neg hremove]
        refine (ih _).trans ⟨.inr, ?_⟩
        rintro ((hu | hr) | hrest)
        · exact absurd hu hunlink
        · exact absurd hr hremove
        · exact hrest

theorem assembly_iff : (∃ e, (cleanupUnpublishedAssembly f s).1 = .error e) ↔ AssemblyFails f s := by
  unfold cleanupUnpublishedAssembly AssemblyFails
  cases hoperations : f.fails .operations with
  | true => exact ⟨fun _ => .inl rfl, fun _ => ⟨_, rfl⟩⟩
  | false =>
    cases hpending : s.pending with
    | true => exact ⟨fun _ => .inr (.inl rfl), fun _ => ⟨_, rfl⟩⟩
    | false =>
      cases hname : s.filename with
      | nil =>
        refine ⟨fun ⟨_, he⟩ => (nomatch he), ?_⟩
        rintro (h | h | ⟨h, -⟩)
        · cases h
        · cases h
        · exact absurd rfl h
      | cons c name =>
        simp only [Bool.false_eq_true, if_false, List.isEmpty_cons, false_or, ne_eq, reduceCtorEq, not_false_eq_true,
          true_and]
        by_cases hlist : f.fails .list = true
        · rw [if_pos hlist]
          exact ⟨fun _ => .inl hlist, fun _ => ⟨_, rfl⟩⟩
        · rw [if_neg hlist]
          by_cases hfile : f.fails .file = true
          · rw [if_pos hfile]
            exact ⟨fun _ => .inr (.inl hfile), fun _ => ⟨_, rfl⟩⟩
          · rw [if_neg hfile]
            have hattempts : (∃ e, (removeAttempts f s.committed s.disk.attempts s.disk).1 = .error e) ↔
                AttemptsFail f s.committed s.disk.attempts := removeAttempts_iff s.committed s.disk.attempts s.disk
            split
            next e disk hremoved =>
              exact ⟨fun _ => .inr (.inr (.inl (hattempts.mp ⟨e, by rw [hremoved]⟩))), fun _ => ⟨_, rfl⟩⟩
            next disk hremoved =>
              have hnone : ¬AttemptsFail f s.committed s.disk.attempts := fun h => by
                obtain ⟨e, he⟩ := hattempts.mpr h
                rw [hremoved] at he
                cases he
              cases hcommitted : s.committed with
              | some object =>
                refine ⟨fun ⟨_, he⟩ => (nomatch he), ?_⟩
                rintro (h | h | h | ⟨h, -⟩)
                · exact absurd h hlist
                · exact absurd h hfile
                · exact absurd h (hcommitted ▸ hnone)
                · cases h
              | none =>
                by_cases hunlink : f.fails (.unlink none) = true
                · simp only [Option.isSome_none, Bool.false_eq_true, if_false, if_pos hunlink]
                  exact ⟨fun _ => .inr (.inr (.inr ⟨trivial, hunlink⟩)), fun _ => ⟨_, rfl⟩⟩
                · simp only [Option.isSome_none, Bool.false_eq_true, if_false, if_neg hunlink]
                  refine ⟨fun ⟨_, he⟩ => (nomatch he), ?_⟩
                  rintro (h | h | h | ⟨-, h⟩)
                  · exact absurd h hlist
                  · exact absurd h hfile
                  · exact absurd h (hcommitted ▸ hnone)
                  · exact absurd h hunlink

/-- What stays of a session whatever happens to it. -/
def Same (s s' : Session) : Prop := s'.userId = s.userId ∧ s'.workspaceId = s.workspaceId

variable (f now s) in
/-- What the transaction for a session does: it fails, leaves the session, or removes it. -/
inductive Result : Except Err ℕ × Option Session → Prop
  | failed {e row} : Throws f now s → (s.expiresAt.any (· < now) = false → row = some s) →
      (∀ s', row = some s' → Same s s') → Result (.error e, row)
  | left : ¬Throws f now s → f.busy = true ∨ s.expiresAt.any (· < now) = false → Result (.ok 0, some s)
  | removed : ¬Throws f now s → f.busy = false → s.expiresAt.any (· < now) = true → Result (.ok 1, none)

/-- **What the transaction for a session does.** -/
theorem result_of_active (hactive : s.active = true) : Result f now s (cleanupSession f now (some s)) := by
  have hself {row : Option Session} (hrow : row = some s) : ∀ s', row = some s' → Same s s' := fun s' h => by
    cases hrow.symm.trans h
    exact ⟨rfl, rfl⟩
  have hterminal : (s.status = .completed || s.status = .aborted : Bool) = false := by
    unfold Session.active at hactive
    cases hstatus : s.status with
    | pending => rfl
    | uploading => rfl
    | completed => simp [hstatus] at hactive
    | aborted => simp [hstatus] at hactive
  have hleft (hbegin : f.fails .begin = false) (hfence : f.fails .fence = false)
      (hno : f.busy = true ∨ (f.fails .find = false ∧ f.fails .workspace = false ∧ s.expiresAt.any (· < now) = false)) :
      Result f now s (commit f 0 (some s) (some s)) := by
    rcases commit_cases f 0 (some s) (some s) with ⟨e, he, hrow⟩ | ⟨hcommit, hack, heq⟩
    · have hsame : (commit f 0 (some s) (some s)).2 = some s := hrow.elim And.right And.right
      have hthrows : Throws f now s := hrow.elim (fun h => .inr (.inr (.inl h.1))) fun h => .inr (.inr (.inr (.inl h.1)))
      have hpair : commit f 0 (some s) (some s) = (.error e, some s) := Prod.ext he hsame
      rw [hpair]
      exact .failed hthrows (fun _ => rfl) (hself rfl)
    · rw [heq]
      refine .left ?_ (hno.imp_right fun h => h.2.2)
      rintro (h | h | h | h | ⟨hbusy, h⟩)
      · exact Bool.false_ne_true (hbegin.symm.trans h)
      · exact Bool.false_ne_true (hfence.symm.trans h)
      · exact Bool.false_ne_true (hcommit.symm.trans h)
      · exact Bool.false_ne_true (hack.symm.trans h)
      · rcases hno with hb | ⟨hfind, hworkspace, hexpired⟩
        · exact Bool.false_ne_true (hbusy.symm.trans hb)
        · rcases h with h | h | ⟨h, -⟩
          · exact Bool.false_ne_true (hfind.symm.trans h)
          · exact Bool.false_ne_true (hworkspace.symm.trans h)
          · exact Bool.false_ne_true (hexpired.symm.trans h)
  unfold cleanupSession
  cases hbegin : f.fails .begin with
  | true => exact .failed (.inl hbegin) (fun _ => rfl) (hself rfl)
  | false =>
    cases hfence : f.fails .fence with
    | true => exact .failed (.inr (.inl hfence)) (fun _ => rfl) (hself rfl)
    | false =>
      cases hbusy : f.busy with
      | true => exact hleft hbegin hfence (.inl hbusy)
      | false =>
        have hthrows (h : f.fails .find = true ∨ f.fails .workspace = true ∨ (s.expiresAt.any (· < now) = true ∧
            (AssemblyFails f s ∨ f.fails .directory = true ∨ f.fails .chunks = true ∨ f.fails .row = true))) :
            Throws f now s := .inr (.inr (.inr (.inr ⟨hbusy, h⟩)))
        cases hfind : f.fails .find with
        | true => exact .failed (hthrows (.inl hfind)) (fun _ => rfl) (hself rfl)
        | false =>
          cases hworkspace : f.fails .workspace with
          | true =>
            simp only [Bool.or_false, Bool.false_eq_true, if_false, if_true]
            exact .failed (hthrows (.inr (.inl hworkspace))) (fun _ => rfl) (hself rfl)
          | false =>
            simp only [hterminal, Bool.or_false, Bool.false_eq_true, if_false, Bool.not_false, Bool.true_and]
            cases hexpired : s.expiresAt.any (· < now) with
            | false => exact hleft hbegin hfence (.inr ⟨hfind, hworkspace, hexpired⟩)
            | true =>
              have hcleanup (h : AssemblyFails f s ∨ f.fails .directory = true ∨ f.fails .chunks = true ∨
                  f.fails .row = true) : Throws f now s := hthrows (.inr (.inr ⟨hexpired, h⟩))
              have hassembly : (∃ e, (cleanupUnpublishedAssembly f s).1 = .error e) ↔ AssemblyFails f s := assembly_iff
              have hchanged (disk : Disk) : ∀ s', some { s with disk := disk } = some s' → Same s s' := fun s' h => by
                cases h
                exact ⟨rfl, rfl⟩
              simp only [Bool.not_true, Bool.false_eq_true, if_false]
              split
              next e disk heq =>
                have hfails : AssemblyFails f s := hassembly.mp ⟨e, by rw [heq]⟩
                exact .failed (hcleanup (.inl hfails)) (fun h => nomatch hexpired.symm.trans h) (hchanged disk)
              next disk heq =>
                have hsucceeds : ¬AssemblyFails f s := fun h => by
                  obtain ⟨e, he⟩ := hassembly.mpr h
                  rw [heq] at he
                  cases he
                cases hdirectory : f.fails .directory with
                | true =>
                  exact .failed (hcleanup (.inr (.inl hdirectory))) (fun h => nomatch hexpired.symm.trans h) (hchanged _)
                | false =>
                  simp only [Bool.false_eq_true, if_false]
                  by_cases hdb : (f.fails .chunks || f.fails .row) = true
                  · rw [if_pos hdb]
                    have hrows : f.fails .chunks = true ∨ f.fails .row = true := Bool.or_eq_true_iff.mp hdb
                    exact .failed (hcleanup (.inr (.inr hrows))) (fun h => nomatch hexpired.symm.trans h) (hchanged _)
                  · rw [if_neg hdb]
                    rw [Bool.not_eq_true, Bool.or_eq_false_iff] at hdb
                    rcases commit_cases f 1 (some { s with disk := { disk with attempts := [], staged := [] } }) none with
                      ⟨e, he, hrow⟩ | ⟨hcommit, hack, hok⟩
                    · have hends : Throws f now s :=
                        hrow.elim (fun h => .inr (.inr (.inl h.1))) fun h => .inr (.inr (.inr (.inl h.1)))
                      rw [← Prod.mk.eta (p := commit _ _ _ _), he]
                      refine .failed hends (fun h => nomatch hexpired.symm.trans h) fun s' hs' => ?_
                      rcases hrow with ⟨-, hrow⟩ | ⟨-, hrow⟩
                      · exact hchanged _ s' (hrow.symm.trans hs')
                      · cases hrow.symm.trans hs'
                    · rw [hok]
                      refine .removed ?_ hbusy hexpired
                      rintro (h | h | h | h | ⟨-, h | h | ⟨-, h | h | h | h⟩⟩)
                      · exact Bool.false_ne_true (hbegin.symm.trans h)
                      · exact Bool.false_ne_true (hfence.symm.trans h)
                      · exact Bool.false_ne_true (hcommit.symm.trans h)
                      · exact Bool.false_ne_true (hack.symm.trans h)
                      · exact Bool.false_ne_true (hfind.symm.trans h)
                      · exact Bool.false_ne_true (hworkspace.symm.trans h)
                      · exact hsucceeds h
                      · exact Bool.false_ne_true (hdirectory.symm.trans h)
                      · exact Bool.false_ne_true (hdb.1.symm.trans h)
                      · exact Bool.false_ne_true (hdb.2.symm.trans h)

theorem removeChunks_snd (f : Faults) (s : Session) :
    ∃ s', (removeChunks f s).2 = some s' ∧ s'.status = s.status ∧ Same s s' := by
  unfold removeChunks
  dsimp only
  split_ifs
  · exact ⟨_, rfl, rfl, rfl, rfl⟩
  · exact ⟨_, rfl, rfl, rfl, rfl⟩
  · exact ⟨_, rfl, rfl, rfl, rfl⟩

/-- The session is aborted, or as before. -/
def Settled (s : Session) (out : Except Err Unit × Option Session) : Prop :=
  ∃ s', out.2 = some s' ∧ (s' = s ∨ (s'.status = .aborted ∧ Same s s'))

/-- **The cancellation of a session.** -/
theorem settled_abortUpload (enabled : Bool) (f : Faults) (now : ℕ) (s : Session) :
    Settled s (abortUpload enabled f now (some s)) := by
  have hfailed (e : Err) : Settled s (.error e, some s) := ⟨s, rfl, .inl rfl⟩
  have hcommit : Settled s (commit f () (some s) (some s)) := by
    rcases commit_cases f () (some s) (some s) with ⟨e, -, ⟨-, h⟩ | ⟨-, h⟩⟩ | ⟨-, -, h⟩
    · exact ⟨s, h, .inl rfl⟩
    · exact ⟨s, h, .inl rfl⟩
    · exact ⟨s, congrArg Prod.snd h, .inl rfl⟩
  unfold abortUpload
  refine iteInduction (fun _ => hfailed _) fun _ => ?_
  refine iteInduction (fun _ => hfailed _) fun _ => ?_
  refine iteInduction (fun _ => hfailed _) fun _ => ?_
  split
  next => exact hfailed _
  next s' hs' =>
    obtain rfl : s = s' := Option.some.inj (Option.filter_eq_some_iff.mp hs').1
    refine iteInduction (fun _ => hfailed _) fun _ => ?_
    refine iteInduction (fun _ => hfailed _) fun _ => ?_
    refine iteInduction (fun _ => hfailed _) fun _ => ?_
    refine iteInduction (fun _ => hfailed _) fun _ => ?_
    refine iteInduction (fun _ => hfailed _) fun _ => ?_
    refine iteInduction (fun _ => hcommit) fun _ => ?_
    refine iteInduction (fun _ => hfailed _) fun _ => ?_
    refine iteInduction (fun _ => hfailed _) fun _ => ?_
    refine iteInduction (fun _ => hfailed _) fun _ => ?_
    refine iteInduction (fun _ => hfailed _) fun _ => ?_
    split
    next e row heq =>
      rcases commit_cases f () (some s) (some { s with status := .aborted }) with ⟨e, -, ⟨-, h⟩ | ⟨-, h⟩⟩ | ⟨-, -, h⟩
      · exact ⟨s, (congrArg Prod.snd heq).symm.trans h, .inl rfl⟩
      · exact ⟨_, (congrArg Prod.snd heq).symm.trans h, .inr ⟨rfl, rfl, rfl⟩⟩
      · cases heq.symm.trans h
    next =>
      obtain ⟨s', hs', hstatus, hkept⟩ := removeChunks_snd f { s with status := .aborted }
      exact ⟨s', hs', .inr ⟨hstatus, hkept⟩⟩

/-- A session on the SSD that has expired is aborted, unless that is refused. -/
theorem aborted_of_not_refused {enabled : Bool} (hssd : s.workspaceId = .ssd) (hactive : s.active = true)
    (hexpired : s.expiresAt.any (· ≤ now) = true) (hallowed : ¬Refused enabled f s) :
    ∃ s', (abortUpload enabled f now (some s)).2 = some s' ∧ s'.status = .aborted := by
  have hsteps : ∀ step ∈ [Step.lock, .session, .workspace, .begin, .settings, .find, .operations, .row, .commit],
      f.fails step = false := fun step hstep => by
    by_contra hfails
    exact hallowed (.inr (.inr (.inr (.inr ⟨step, hstep, Bool.not_eq_false _ ▸ hfails⟩))))
  have henabled : ¬(!enabled) = true := fun h => hallowed (.inl ((Bool.not_eq_true' enabled).mp h))
  have horigin : s.origin = .owner := by_contra fun h => hallowed (.inr (.inl h))
  have hhash : ¬(!s.expectedSha256.any (isHex 64)) = true :=
    fun h => hallowed (.inr (.inr (.inl ((Bool.not_eq_true' _).mp h))))
  have hpending : ¬s.pending = true := fun h => hallowed (.inr (.inr (.inr (.inl h))))
  have hworks (step : Step) (hstep : step ∈ [Step.lock, .session, .workspace, .begin, .settings, .find, .operations,
      .row, .commit]) : ¬f.fails step = true := Bool.not_eq_true _ ▸ hsteps step hstep
  have hdue : ¬(!s.expiresAt.any (· ≤ now)) = true := fun h => nomatch ((Bool.not_eq_true' _).mp h).symm.trans hexpired
  have hcompleted : ¬s.status = .completed := fun h => by simp [Session.active, h] at hactive
  have howned : (some s).filter (fun s => s.workspaceId = .ssd && s.origin = .owner) = some s := by
    rw [Option.filter_some, if_pos (by rw [hssd, horigin]; rfl)]
  unfold abortUpload
  rw [if_neg henabled, if_neg (hworks .lock (by decide)), if_neg (hworks .session (by decide)), howned]
  dsimp only
  rw [if_neg hhash, if_neg (hworks .workspace (by decide)), if_neg (hworks .begin (by decide)),
    if_neg (hworks .settings (by decide)), if_neg (hworks .find (by decide)), if_neg hdue, if_neg hcompleted,
    if_neg (hworks .operations (by decide)), if_neg hpending, if_neg (hworks .row (by decide))]
  split
  next e row heq =>
    rcases commit_cases f () (some s) (some { s with status := .aborted }) with ⟨e, -, ⟨h, -⟩ | ⟨-, h⟩⟩ | ⟨-, -, h⟩
    · exact absurd h (hworks .commit (by decide))
    · exact ⟨_, (congrArg Prod.snd heq).symm.trans h, rfl⟩
    · cases heq.symm.trans h
  next =>
    obtain ⟨s', hs', hstatus, -⟩ := removeChunks_snd f { s with status := .aborted }
    exact ⟨s', hs', hstatus⟩

end Session

/-! ## The loops -/

section Loops

variable {env : Env} {S : Sessions} {ids : List ℕ} {id j : ℕ} {row : Option Session}

theorem get_put (hid : id ∈ S.order) : (S.put id row).get j = if j = id then row else S.get j := by
  simp only [Sessions.put, hid, and_true]

variable (env S) in
def result (id : ℕ) : Except Err ℕ × Option Session := cleanupSession (env.faults id) (env.clock id) (S.get id)

variable (env S) in
def cancellation (id : ℕ) : Except Err Unit × Option Session :=
  abortUpload env.enabled (env.faults id) (env.aborting id) (S.get id)

variable (env S) in
/-- How far the loop over the legacy workspace gets: to the end, or to the first transaction that fails. -/
inductive Swept (ids : List ℕ) : Except Err ℕ × Sessions → Prop
  | whole {n S'} : S'.order = S.order → (∀ id ∈ ids, ∃ n, (result env S id).1 = .ok n) →
      (∀ id ∈ ids, S'.get id = (result env S id).2) → (∀ j ∉ ids, S'.get j = S.get j) → Swept ids (.ok n, S')
  | stopped {e e' S' pre id post} : S'.order = S.order → ids = pre ++ id :: post →
      (∀ k ∈ pre, ∃ n, (result env S k).1 = .ok n) → (result env S id).1 = .error e →
      (∀ k ∈ pre ++ [id], S'.get k = (result env S k).2) → (∀ j ∉ pre ++ [id], S'.get j = S.get j) →
      Swept ids (.error e', S')

/-- **How far the loop over the legacy workspace gets.** -/
theorem swept_of_nodup (hnodup : ids.Nodup) (hids : ∀ id ∈ ids, id ∈ S.order) :
    Swept env S ids (cleanupSessions env ids S) := by
  induction ids generalizing S with
  | nil =>
    exact .whole rfl (fun _ h => absurd h List.not_mem_nil) (fun _ h => absurd h List.not_mem_nil) fun _ _ => rfl
  | cons id ids ih =>
    obtain ⟨hid, hrest⟩ := List.nodup_cons.mp hnodup
    have horder : id ∈ S.order := hids id List.mem_cons_self
    unfold cleanupSessions
    split
    next e row heq =>
      have hself : (S.put id row).get id = (result env S id).2 := by
        rw [get_put horder, if_pos rfl]
        exact (congrArg Prod.snd heq).symm
      refine .stopped (e := e) rfl (List.nil_append _).symm (fun _ h => absurd h List.not_mem_nil)
        (congrArg Prod.fst heq) (fun k hk => ?_) fun j hj => ?_
      · rw [List.mem_singleton.mp hk]
        exact hself
      · rw [get_put horder, if_neg fun h => hj (List.mem_singleton.mpr h)]
    next n row heq =>
      have hself : (S.put id row).get id = (result env S id).2 := by
        rw [get_put horder, if_pos rfl]
        exact (congrArg Prod.snd heq).symm
      have hother {j : ℕ} (hj : j ≠ id) : (S.put id row).get j = S.get j := by rw [get_put horder, if_neg hj]
      have hresult {k : ℕ} (hk : k ≠ id) : result env (S.put id row) k = result env S k := by
        unfold result
        rw [hother hk]
      have hswept := ih hrest (S := S.put id row) fun k hk => hids k (List.mem_cons_of_mem id hk)
      generalize cleanupSessions env ids (S.put id row) = out at hswept
      have hstart : ∃ n, (result env S id).1 = .ok n := ⟨n, congrArg Prod.fst heq⟩
      have hne {k : ℕ} (hk : k ∈ ids) : k ≠ id := fun h => hid (h ▸ hk)
      cases hswept with
      | whole horder' hok hprocessed hkept =>
        refine .whole horder' (List.forall_mem_cons.mpr ⟨hstart, fun k hk => ?_⟩)
          (List.forall_mem_cons.mpr ⟨(hkept id hid).trans hself, fun k hk => ?_⟩) fun j hj => ?_
        · rw [← hresult (hne hk)]
          exact hok k hk
        · rw [← hresult (hne hk)]
          exact hprocessed k hk
        · obtain ⟨hne', hj⟩ := List.ne_and_not_mem_of_not_mem_cons hj
          exact (hkept j hj).trans (hother hne')
      | @stopped e e' S' pre t post horder' hsplit hok hthrows hprocessed hkept =>
        have hpre {k : ℕ} (hk : k ∈ pre ++ [t]) : k ∈ ids := by
          rw [hsplit, List.append_cons]
          exact List.mem_append_left post hk
        have hlast : t ∈ pre ++ [t] := List.mem_append_right pre List.mem_cons_self
        refine @Swept.stopped env S (id :: ids) e e' S' (id :: pre) t post horder' (by rw [hsplit, List.cons_append])
          (List.forall_mem_cons.mpr ⟨hstart, fun k hk => ?_⟩) (by rwa [← hresult (hne (hpre hlast))])
          (List.forall_mem_cons.mpr ⟨(hkept id fun h => hid (hpre h)).trans hself, fun k hk => ?_⟩) fun j hj => ?_
        · rw [← hresult (hne (hpre (List.mem_append_left [t] hk)))]
          exact hok k hk
        · rw [← hresult (hne (hpre hk))]
          exact hprocessed k hk
        · obtain ⟨hne', hj⟩ := List.ne_and_not_mem_of_not_mem_cons hj
          exact (hkept j hj).trans (hother hne')

/-- **What the loop over the SSD makes of its sessions.** -/
theorem abortSessions_get (hnodup : ids.Nodup) (hids : ∀ id ∈ ids, id ∈ S.order) :
    (abortSessions env ids S).2.order = S.order ∧
      (∀ id ∈ ids, (abortSessions env ids S).2.get id = (cancellation env S id).2) ∧
        ∀ j ∉ ids, (abortSessions env ids S).2.get j = S.get j := by
  induction ids generalizing S with
  | nil => exact ⟨rfl, fun _ h => absurd h List.not_mem_nil, fun _ _ => rfl⟩
  | cons id ids ih =>
    obtain ⟨hid, hrest⟩ := List.nodup_cons.mp hnodup
    have horder : id ∈ S.order := hids id List.mem_cons_self
    have hstep : (abortSessions env (id :: ids) S).2 = (abortSessions env ids (S.put id (cancellation env S id).2)).2 := by
      unfold cancellation
      rw [abortSessions]
      split
      next heq => rw [heq]
      next heq => rw [heq]
    have hother {j : ℕ} (hj : j ≠ id) : (S.put id (cancellation env S id).2).get j = S.get j := by
      rw [get_put horder, if_neg hj]
    obtain ⟨horder', hprocessed, hkept⟩ := ih hrest (S := S.put id (cancellation env S id).2)
      fun k hk => hids k (List.mem_cons_of_mem id hk)
    rw [hstep]
    refine ⟨horder', List.forall_mem_cons.mpr ⟨?_, fun k hk => ?_⟩, fun j hj => ?_⟩
    · rw [hkept id hid, get_put horder, if_pos rfl]
    · have hne : k ≠ id := fun h => hid (h ▸ hk)
      rw [hprocessed k hk]
      have hget := hother hne
      unfold cancellation at hget ⊢
      rw [hget]
    · obtain ⟨hne, hj⟩ := List.ne_and_not_mem_of_not_mem_cons hj
      exact (hkept j hj).trans (hother hne)

variable (S) in
/-- The sessions that the loop over the legacy workspace goes through. -/
def Sessions.legacy : List ℕ :=
  (S.select fun s => s.active).filter fun id => (S.get id).any (·.workspaceId ≠ .ssd)

theorem mem_select {p : Session → Bool} : id ∈ S.select p ↔ ∃ s, S.get id = some s ∧ p s = true := by
  rw [Sessions.select, List.mem_filter, Option.any_eq_true]
  constructor
  · exact And.right
  · rintro ⟨s, hs, hp⟩
    exact ⟨S.listed id (Option.isSome_of_eq_some hs), s, hs, hp⟩

theorem mem_legacy : id ∈ S.legacy ↔ ∃ s, S.get id = some s ∧ s.active = true ∧ s.workspaceId = .legacy := by
  rw [Sessions.legacy, List.mem_filter, mem_select, Option.any_eq_true]
  constructor
  · rintro ⟨⟨s, hs, hactive⟩, s', hs', hworkspace⟩
    cases hs.symm.trans hs'
    refine ⟨s, hs, hactive, ?_⟩
    cases hlegacy : s.workspaceId with
    | legacy => rfl
    | ssd => exact absurd hlegacy (of_decide_eq_true hworkspace)
  · rintro ⟨s, hs, hactive, hlegacy⟩
    exact ⟨⟨s, hs, hactive⟩, s, hs, decide_eq_true fun h => nomatch hlegacy.symm.trans h⟩

theorem legacy_sublist : S.legacy.Sublist S.order :=
  List.filter_sublist.trans List.filter_sublist

theorem mem_expired : id ∈ env.expired S ↔
    ∃ s, S.get id = some s ∧ s.workspaceId = .ssd ∧ s.active = true ∧ s.expiresAt.any (· ≤ env.asked) = true := by
  simp only [Env.expired, mem_select, Bool.and_eq_true, decide_eq_true_eq, and_assoc]

/-- The transaction for a session that the loop goes through. -/
theorem result_of_mem {s : Session} (hid : id ∈ S.legacy) (hs : S.get id = some s) :
    Result (env.faults id) (env.clock id) s (result env S id) := by
  obtain ⟨s', hs', hactive, -⟩ := mem_legacy.mp hid
  cases hs.symm.trans hs'
  rw [result, hs]
  exact result_of_active hactive

theorem same_of_mem {s' : Session} (hid : id ∈ S.legacy) (hrow : (result env S id).2 = some s') :
    ∃ s, S.get id = some s ∧ Same s s' := by
  obtain ⟨s, hs, -⟩ := mem_legacy.mp hid
  have hresult : Result (env.faults id) (env.clock id) s (result env S id) := result_of_mem hid hs
  refine ⟨s, hs, ?_⟩
  generalize result env S id = out at hresult hrow
  cases hresult with
  | failed _ _ hsame => exact hsame s' hrow
  | left =>
    cases hrow
    exact ⟨rfl, rfl⟩
  | removed => cases hrow

/-! ## The whole run -/

variable (env S) in
/-- The sessions that the cleanup of the SSD goes through. -/
def Env.aborts : List ℕ := if env.enabled then (env.expired S).take 128 else []

theorem mem_expired_of_aborts (hid : id ∈ env.aborts S) : id ∈ env.expired S := by
  unfold Env.aborts at hid
  split_ifs at hid with h
  · exact List.mem_of_mem_take hid
  · exact absurd hid List.not_mem_nil

variable (env S) in
/-- What a run has done that has come to these sessions. -/
structure Ran (ids ssd : List ℕ) (S' : Sessions) : Prop where
  order : S'.order = S.order
  legacy : ∀ id ∈ ids, id ∈ S.legacy
  expired : ∀ id ∈ ssd, id ∈ env.expired S
  swept : ∀ id ∈ ids, S'.get id = (result env S id).2
  aborted : ∀ id ∈ ssd, S'.get id = (cancellation env S id).2
  others : ∀ id, id ∉ ids → id ∉ ssd → S'.get id = S.get id

/-- No session on the SSD is one of the legacy workspace. -/
theorem not_mem_legacy (hid : id ∈ env.expired S) : id ∉ S.legacy := fun hlegacy => by
  obtain ⟨s, hs, hssd, -⟩ := mem_expired.mp hid
  obtain ⟨s', hs', -, hworkspace⟩ := mem_legacy.mp hlegacy
  cases hs.symm.trans hs'
  cases hssd.symm.trans hworkspace

/-- The loop over the legacy workspace leaves the sessions on the SSD. -/
theorem expired_eq {S' : Sessions} (horder : S'.order = S.order)
    (hswept : ∀ id ∈ S.legacy, S'.get id = (result env S id).2) (hothers : ∀ id ∉ S.legacy, S'.get id = S.get id) :
    env.expired S' = env.expired S := by
  unfold Env.expired Sessions.select
  rw [horder]
  refine List.filter_congr fun id _ => ?_
  by_cases hid : id ∈ S.legacy
  · obtain ⟨s, hs, -, hlegacy⟩ := mem_legacy.mp hid
    rw [hs, Option.any_some, hlegacy, hswept id hid]
    cases hrow : (result env S id).2 with
    | none => rfl
    | some s' =>
      obtain ⟨s'', hs'', hsame⟩ := same_of_mem hid hrow
      cases hs.symm.trans hs''
      rw [Option.any_some, hsame.2, hlegacy]
      rfl
  · rw [hothers id hid]

variable (env S) in
/-- How far a run gets: to the end, or to the first transaction that fails. -/
inductive Outcome : Sessions → Prop
  | whole {S'} : Ran env S S.legacy (env.aborts S) S' → (∀ id ∈ S.legacy, ∃ n, (result env S id).1 = .ok n) → Outcome S'
  | stopped {e S' pre id post} : Ran env S (pre ++ [id]) [] S' → S.legacy = pre ++ id :: post →
      (∀ k ∈ pre, ∃ n, (result env S k).1 = .ok n) → (result env S id).1 = .error e → Outcome S'

/-- **How far a run gets.** -/
theorem outcome_cleanupExpiredSessions : Outcome env S (cleanupExpiredSessions env S).2 := by
  have hnodup : S.legacy.Nodup := S.nodup.sublist legacy_sublist
  have hswept : Swept env S S.legacy (cleanupSessions env S.legacy S) :=
    swept_of_nodup hnodup fun id hid => legacy_sublist.subset hid
  have hrun : cleanupExpiredSessions env S = match cleanupSessions env S.legacy S with
      | (.error e, S') => (.error e, S')
      | (.ok cleaned, S') =>
        if env.enabled then
          let (aborted, S'') := ssdCleanupExpiredSessions env S'
          (.ok (cleaned + aborted), S'')
        else (.ok cleaned, S') := rfl
  rw [hrun]
  generalize cleanupSessions env S.legacy S = out at hswept
  cases hswept with
  | stopped horder hsplit hok hthrows hprocessed hkept =>
    refine .stopped ⟨horder, fun k hk => ?_, fun _ h => absurd h List.not_mem_nil, hprocessed,
      fun _ h => absurd h List.not_mem_nil, fun j hj _ => hkept j hj⟩ hsplit hok hthrows
    rw [hsplit, List.append_cons]
    exact List.mem_append_left _ hk
  | @whole n S' horder hok hprocessed hkept =>
    have hexpired : env.expired S' = env.expired S := expired_eq horder hprocessed hkept
    dsimp only
    by_cases henabled : env.enabled = true
    · have haborts : env.aborts S = (env.expired S').take 128 := by rw [Env.aborts, if_pos henabled, hexpired]
      have hdistinct : ((env.expired S').take 128).Nodup :=
        S'.nodup.sublist ((List.take_sublist 128 _).trans List.filter_sublist)
      obtain ⟨horder', haborted, hothers⟩ := @abortSessions_get env S' ((env.expired S').take 128)
        hdistinct fun id hid => List.filter_sublist.subset (List.mem_of_mem_take hid)
      rw [if_pos henabled, ssdCleanupExpiredSessions, if_neg (by rw [henabled]; decide), ← haborts]
      rw [← haborts] at haborted hothers horder'
      dsimp only
      refine .whole ⟨horder'.trans horder, fun _ h => h, fun id hid => mem_expired_of_aborts hid, fun id hid => ?_,
        fun id hid => ?_, fun id hlegacy hssd => ?_⟩ hok
      · rw [hothers id fun h => not_mem_legacy (mem_expired_of_aborts h) hid]
        exact hprocessed id hid
      · have hget : S'.get id = S.get id := hkept id (not_mem_legacy (mem_expired_of_aborts hid))
        rw [haborted id hid, cancellation, hget, cancellation]
      · rw [hothers id hssd]
        exact hkept id hlegacy
    · have haborts : env.aborts S = [] := by rw [Env.aborts, if_neg henabled]
      rw [if_neg henabled]
      refine .whole ⟨horder, fun _ h => h, fun id hid => mem_expired_of_aborts hid, hprocessed, fun id hid => ?_,
        fun id hlegacy _ => hkept id hlegacy⟩ hok
      rw [haborts] at hid
      exact absurd hid List.not_mem_nil

theorem throws_of_error {s : Session} {e : Err} (hid : id ∈ S.legacy) (hs : S.get id = some s)
    (he : (result env S id).1 = .error e) : Throws (env.faults id) (env.clock id) s := by
  have hresult : Result (env.faults id) (env.clock id) s (result env S id) := result_of_mem hid hs
  generalize result env S id = out at hresult he
  cases hresult with
  | failed hthrows => exact hthrows
  | left => cases he
  | removed => cases he

theorem not_throws_of_ok {s : Session} (hid : id ∈ S.legacy) (hs : S.get id = some s)
    (hok : ∃ n, (result env S id).1 = .ok n) : ¬Throws (env.faults id) (env.clock id) s := by
  obtain ⟨n, hn⟩ := hok
  have hresult : Result (env.faults id) (env.clock id) s (result env S id) := result_of_mem hid hs
  generalize result env S id = out at hresult hn
  cases hresult with
  | failed => cases hn
  | left hthrows => exact hthrows
  | removed hthrows => exact hthrows

section Ran

variable {legacy ssd : List ℕ} {S' : Sessions} {s : Session}

/-- A session of the legacy workspace that has expired is removed when the run comes to it, unless that fails. -/
theorem Ran.removed (hran : Ran env S legacy ssd S') (hid : id ∈ legacy) (hs : S.get id = some s)
    (hdue : env.due id s = true) (hworks : ¬env.Fails id s) : S'.get id = none := by
  obtain ⟨s', hs', -, hlegacy⟩ := mem_legacy.mp (hran.legacy id hid)
  cases hs.symm.trans hs'
  have hresult : Result (env.faults id) (env.clock id) s (result env S id) := result_of_mem (hran.legacy id hid) hs
  rw [Env.Fails, hlegacy] at hworks
  rw [Env.due, hlegacy, Bool.and_eq_true] at hdue
  rw [hran.swept id hid]
  generalize result env S id = out at hresult
  cases hresult with
  | failed hthrows => exact absurd (.inr hthrows) hworks
  | left _ hleft =>
    rcases hleft with hbusy | hexpired
    · exact absurd (.inl hbusy) hworks
    · cases hexpired.symm.trans hdue.2
  | removed => rfl

/-- A session that has not expired is left as it is. -/
theorem Ran.kept (hran : Ran env S legacy ssd S') (hs : S.get id = some s) (hdue : env.due id s = false) :
    S'.get id = some s := by
  by_cases hlegacy : id ∈ legacy
  · obtain ⟨s', hs', hactive, hworkspace⟩ := mem_legacy.mp (hran.legacy id hlegacy)
    cases hs.symm.trans hs'
    have hresult : Result (env.faults id) (env.clock id) s (result env S id) :=
      result_of_mem (hran.legacy id hlegacy) hs
    rw [Env.due, hworkspace, hactive, Bool.true_and] at hdue
    rw [hran.swept id hlegacy]
    generalize result env S id = out at hresult
    cases hresult with
    | failed _ hleft => exact hleft hdue
    | left => rfl
    | removed _ _ hexpired => cases hdue.symm.trans hexpired
  · by_cases hssd : id ∈ ssd
    · obtain ⟨s', hs', hworkspace, hactive, hexpired⟩ := mem_expired.mp (hran.expired id hssd)
      cases hs.symm.trans hs'
      rw [Env.due, hworkspace, hactive, Bool.true_and] at hdue
      cases hdue.symm.trans hexpired
    · rw [hran.others id hlegacy hssd, hs]

/-- A run makes no session, and changes the owner and the workspace of none. -/
theorem Ran.same {s' : Session} (hran : Ran env S legacy ssd S') (hs' : S'.get id = some s') :
    ∃ s, S.get id = some s ∧ Same s s' := by
  by_cases hlegacy : id ∈ legacy
  · rw [hran.swept id hlegacy] at hs'
    exact same_of_mem (hran.legacy id hlegacy) hs'
  · by_cases hssd : id ∈ ssd
    · obtain ⟨s, hs, -⟩ := mem_expired.mp (hran.expired id hssd)
      obtain ⟨s'', hs'', hsettled⟩ := settled_abortUpload env.enabled (env.faults id) (env.aborting id) s
      rw [hran.aborted id hssd, cancellation, hs] at hs'
      cases hs''.symm.trans hs'
      refine ⟨s, hs, ?_⟩
      rcases hsettled with rfl | ⟨-, hsame⟩
      · exact ⟨rfl, rfl⟩
      · exact hsame
    · rw [hran.others id hlegacy hssd] at hs'
      exact ⟨s', hs', rfl, rfl⟩

/-- A session that has been cleaned up does not count. -/
theorem not_active_of_cleaned {s' : Session} {row : Option Session} (hcleaned : Cleaned s row) (hrow : row = some s') :
    s'.active = false := by
  unfold Cleaned at hcleaned
  split at hcleaned
  · cases hcleaned.symm.trans hrow
  · obtain ⟨s'', hs'', haborted⟩ := hcleaned
    cases hs''.symm.trans hrow
    rw [Session.active, haborted]
    rfl

/-- **What counts for a user after a run** that has cleaned up all the sessions of the user that have expired. -/
theorem Ran.quota {userId : ℕ} (hran : Ran env S legacy ssd S')
    (hcleaned : ∀ id s, S.get id = some s → s.userId = userId → env.due id s = true → Cleaned s (S'.get id)) :
    S'.activeTotal userId = S.total fun id s => s.userId = userId && s.active && !env.due id s := by
  unfold Sessions.activeTotal Sessions.total
  rw [hran.order]
  refine congrArg List.sum (List.map_congr_left fun id _ => ?_)
  cases hs : S.get id with
  | none =>
    cases hs' : S'.get id with
    | none => rfl
    | some s' =>
      obtain ⟨s, hsome, -⟩ := hran.same hs'
      cases hs.symm.trans hsome
  | some s =>
    cases hdue : env.due id s with
    | false =>
      rw [hran.kept hs hdue]
      simp only [Option.filter_some, hdue, Bool.not_false, Bool.and_true]
    | true =>
      have hcounts : (s.userId = userId && s.active && !env.due id s) = false := by
        rw [hdue, Bool.not_true, Bool.and_false]
      rw [Option.filter_some (a := s), if_neg (Bool.not_eq_true _ ▸ hcounts)]
      cases hs' : S'.get id with
      | none => rfl
      | some s' =>
        obtain ⟨s'', hs'', hsame⟩ := hran.same hs'
        cases hs.symm.trans hs''
        have hcounts' : (s'.userId = userId && s'.active) = false := by
          by_cases huser : s.userId = userId
          · rw [not_active_of_cleaned (hcleaned id s hs huser hdue) hs', Bool.and_false]
          · rw [hsame.1, decide_eq_false huser, Bool.false_and]
        rw [Option.filter_some, if_neg (Bool.not_eq_true _ ▸ hcounts')]

end Ran

theorem not_both_sublist {l : List ℕ} {a b : ℕ} (hnodup : l.Nodup) (hab : [a, b].Sublist l) :
    ¬[b, a].Sublist l := by
  induction l with
  | nil => exact fun h => nomatch h
  | cons c l ih =>
    obtain ⟨hc, hrest⟩ := List.nodup_cons.mp hnodup
    intro hba
    cases hab with
    | cons _ hab =>
      cases hba with
      | cons _ hba => exact ih hrest hab hba
      | cons_cons => exact hc (hab.subset (List.mem_cons_of_mem a List.mem_cons_self))
    | cons_cons _ hb =>
      cases hba with
      | cons _ hba => exact hc (hba.subset (List.mem_cons_of_mem b List.mem_cons_self))
      | cons_cons => exact hc (hb.subset List.mem_cons_self)

end Loops

/-! ## When the others are cleaned up -/

section Main

variable {env : Env} {S S' : Sessions} {id other : ℕ} {s : Session}

/-- A run that isolates what fails is not blocked. -/
theorem unblocked_of_outcome (hrun : Outcome env S S')
    (hcleaned : ∀ id s, S.get id = some s → env.due id s = true → ¬env.Fails id s → Cleaned s (S'.get id)) :
    Unblocked env S := by
  intro id s hs hdue hworks
  have hgone : S'.get id ≠ some s := fun h => by
    have hactive : s.active = false := not_active_of_cleaned (hcleaned id s hs hdue hworks) h
    rw [Env.due, hactive] at hdue
    exact Bool.false_ne_true hdue
  have hswept {legacy ssd : List ℕ} (hran : Ran env S legacy ssd S') : id ∈ legacy ∨ id ∈ ssd := by
    by_contra h
    obtain ⟨hlegacy, hssd⟩ := not_or.mp h
    exact hgone ((hran.others id hlegacy hssd).trans hs)
  refine ⟨fun other s' hs' hactive hlegacy hthrows => ?_, fun hssd => ?_⟩
  · have hother : other ∈ S.legacy := mem_legacy.mpr ⟨s', hs', hactive, hlegacy⟩
    cases hrun with
    | whole hran hok => exact absurd hthrows (not_throws_of_ok hother hs' (hok other hother))
    | @stopped e S' pre t post hran hsplit hok herror =>
      have hid : id ∈ pre ++ [t] := (hswept hran).resolve_right List.not_mem_nil
      obtain ⟨s'', hs'', -, hworkspace⟩ := mem_legacy.mp (hran.legacy id hid)
      cases hs.symm.trans hs''
      rw [Env.Fails, hworkspace] at hworks
      refine ⟨hworkspace, ?_⟩
      have hpre : id ∈ pre := by
        rcases List.mem_append.mp hid with h | h
        · exact h
        · cases List.mem_singleton.mp h
          exact absurd (.inr (throws_of_error (hran.legacy id hid) hs herror)) hworks
      have hpost : other ∈ t :: post := by
        rw [hsplit] at hother
        rcases List.mem_append.mp hother with h | h
        · have hmem : other ∈ S.legacy := hsplit ▸ List.mem_append_left (t :: post) h
          exact absurd hthrows (not_throws_of_ok hmem hs' (hok other h))
        · exact h
      have hbefore : [id, other].Sublist S.legacy := by
        rw [hsplit]
        exact (List.singleton_sublist.mpr hpre).append (List.singleton_sublist.mpr hpost)
      exact hbefore.trans legacy_sublist
  · have hlegacy : id ∉ S.legacy := fun h => by
      obtain ⟨s', hs', -, hworkspace⟩ := mem_legacy.mp h
      cases hs.symm.trans hs'
      cases hssd.symm.trans hworkspace
    cases hrun with
    | whole hran =>
      have haborts : id ∈ env.aborts S := (hswept hran).resolve_left hlegacy
      unfold Env.aborts at haborts
      split_ifs at haborts
      · exact haborts
      · exact absurd haborts List.not_mem_nil
    | stopped hran =>
      exact ((hswept hran).elim (fun h => hlegacy (hran.legacy id h)) List.not_mem_nil).elim

/-- A run that is not blocked cleans up all that it can. -/
theorem cleaned_of_unblocked (hrun : Outcome env S S') (hfree : Unblocked env S) (hs : S.get id = some s)
    (hdue : env.due id s = true) (hworks : ¬env.Fails id s) : Cleaned s (S'.get id) := by
  obtain ⟨hbefore, hfirst⟩ := hfree id s hs hdue hworks
  obtain ⟨hactive, hexpired⟩ : s.active = true ∧ (match s.workspaceId with
      | .legacy => s.expiresAt.any (· < env.clock id)
      | .ssd => s.expiresAt.any (· ≤ env.asked)) = true := Bool.and_eq_true_iff.mp hdue
  cases hworkspace : s.workspaceId with
  | legacy =>
    have hid : id ∈ S.legacy := mem_legacy.mpr ⟨s, hs, hactive, hworkspace⟩
    rw [Cleaned, hworkspace]
    cases hrun with
    | whole hran => exact hran.removed hid hs hdue hworks
    | @stopped e S' pre t post hran hsplit hok herror =>
      by_cases hmem : id ∈ pre ++ [t]
      · exact hran.removed hmem hs hdue hworks
      · have ht : t ∈ S.legacy := hran.legacy t (List.mem_append_right pre List.mem_cons_self)
        obtain ⟨s', hs', hactive', hlegacy'⟩ := mem_legacy.mp ht
        obtain ⟨-, hidt⟩ := hbefore t s' hs' hactive' hlegacy' (throws_of_error ht hs' herror)
        have hpost : id ∈ post := by
          rw [hsplit, List.append_cons] at hid
          exact (List.mem_append.mp hid).resolve_left hmem
        have htid : [t, id].Sublist S.legacy := by
          rw [hsplit]
          exact ((List.singleton_sublist.mpr hpost).cons_cons t).trans (List.sublist_append_right pre (t :: post))
        exact absurd (htid.trans legacy_sublist) (not_both_sublist S.nodup hidt)
  | ssd =>
    rw [Env.Fails, hworkspace] at hworks
    rw [hworkspace] at hexpired
    rw [Cleaned, hworkspace]
    cases hrun with
    | whole hran =>
      have henabled : env.enabled = true := by_contra fun h => hworks (.inl (Bool.eq_false_of_not_eq_true h))
      have haborts : id ∈ env.aborts S := by
        rw [Env.aborts, if_pos henabled]
        exact hfirst hworkspace
      have hlater : s.expiresAt.any (· ≤ env.aborting id) = true := by
        obtain ⟨t, ht, hle⟩ := (Option.any_eq_true _ _).mp hexpired
        exact (Option.any_eq_true _ _).mpr ⟨t, ht, decide_eq_true ((of_decide_eq_true hle).trans (env.later id))⟩
      obtain ⟨s', hs', haborted⟩ := aborted_of_not_refused hworkspace hactive hlater hworks
      refine ⟨s', ?_, haborted⟩
      rw [hran.aborted id haborts, cancellation, hs]
      exact hs'
    | @stopped e S' pre t post hran hsplit hok herror =>
      have ht : t ∈ S.legacy := hran.legacy t (List.mem_append_right pre List.mem_cons_self)
      obtain ⟨s', hs', hactive', hlegacy'⟩ := mem_legacy.mp ht
      obtain ⟨hlegacy, -⟩ := hbefore t s' hs' hactive' hlegacy' (throws_of_error ht hs' herror)
      cases hlegacy.symm.trans hworkspace

/-- **A run isolates the sessions whose cleanup fails** exactly if no such cleanup stands in the way of another. -/
theorem isolated_iff (env : Env) (S : Sessions) :
    Isolated env S (cleanupExpiredSessions env S).2 ↔ Unblocked env S := by
  have hrun : Outcome env S (cleanupExpiredSessions env S).2 := outcome_cleanupExpiredSessions
  have hran : ∃ legacy ssd, Ran env S legacy ssd (cleanupExpiredSessions env S).2 := by
    cases hrun with
    | whole hran => exact ⟨_, _, hran⟩
    | stopped hran => exact ⟨_, _, hran⟩
  obtain ⟨legacy, ssd, hran⟩ := hran
  constructor
  · exact fun hisolated => unblocked_of_outcome hrun hisolated.cleaned
  · intro hfree
    have hcleaned (id : ℕ) (s : Session) (hs : S.get id = some s) (hdue : env.due id s = true)
        (hworks : ¬env.Fails id s) : Cleaned s ((cleanupExpiredSessions env S).2.get id) :=
      cleaned_of_unblocked hrun hfree hs hdue hworks
    exact ⟨hcleaned, fun id s hs hdue => hran.kept hs hdue, fun userId hall => hran.quota fun id s hs huser hdue =>
      hcleaned id s hs hdue (hall id s hs huser hdue)⟩

end Main

/-! ## A finalization that is pending -/

/-- A session of four bytes that expired long ago. -/
def expiredSession (userId : ℕ) (pending : Bool) : Session where
  userId := userId
  filename := [97]
  totalSize := 4
  workspaceId := .legacy
  origin := .owner
  expectedSha256 := none
  status := .uploading
  expiresAt := some 0
  chunks := [0]
  pending := pending
  committed := none
  disk := { attempts := [], staged := [0], objects := [] }

/-- Two users with an expired session each; a finalization of the first is pending. -/
def twoUsers : Sessions where
  get id := if id = 1 then some (expiredSession 1 true) else if id = 2 then some (expiredSession 2 false) else none
  order := [1, 2]
  nodup := by decide
  listed id h := by
    split_ifs at h with h1 h2
    · exact h1 ▸ List.mem_cons_self
    · exact h2 ▸ List.mem_cons_of_mem 1 List.mem_cons_self
    · cases h

/-- A run in which nothing fails by chance. -/
def quiet : Env where
  enabled := false
  clock _ := 1
  asked := 1
  aborting _ := 1
  faults _ := { busy := false, fails := fun _ => false, left := id }
  later _ := le_rfl

/-- The session of the second user stays, and counts. -/
theorem not_isolated_of_reserved :
    ¬∀ (env : Env) (S : Sessions), Isolated env S (cleanupExpiredSessions env S).2 := by
  intro hall
  have hworks : ¬quiet.Fails 2 (expiredSession 2 false) := by
    simp [Env.Fails, Throws, AssemblyFails, AttemptsFail, quiet, expiredSession]
  have hcleaned : Cleaned (expiredSession 2 false) ((cleanupExpiredSessions quiet twoUsers).2.get 2) :=
    (hall quiet twoUsers).cleaned 2 (expiredSession 2 false) rfl rfl hworks
  have hstays : (cleanupExpiredSessions quiet twoUsers).2.get 2 = some (expiredSession 2 false) := by decide
  cases hcleaned.symm.trans hstays

end Expiry

end HomeCloud
