import HomeCloud.Sharing.SharedTree
import HomeCloud.Statements

/-!
# The limit of downloads

The downloads from one share and its revocations, statement by statement, next to anything else that
happens to the tree it shares.

* `Link`, `Link.saved`: the row with its limit, and what `save` makes of it.
* `View.allowed`, `DownloadState.run`, `DownloadState.save`: the statements.
* `Limited`, `Counted`: what holds in every reachable state.
* **`download_limit`**: the limit, what admits a request, and when the count is right;
  `not_download_limit`.
-/

namespace HomeCloud

open Concurrent

/-- The share is live and shares a folder: its user and the folder. -/
def Db.shareContext (db : Db) (share : ShareLink) (now : ℕ) : Option (ℕ × ℕ) := do
  let rootMirror ← db.files.get share.fileId
  let rootId ← rootMirror.folderId
  let owner ← db.users.get share.userId
  if rootMirror.userId = share.userId && rootMirror.isFolder && !rootMirror.isDeleted &&
      owner.isActive && share.isActive && share.expiresAt.all (now < ·) then
    some (share.userId, rootId)
  else none

namespace Downloads

/-! ## The row -/

/-- A row of `share_links` with the columns of the limit. -/
structure Link extends ShareLink where
  maxDownloads : Option ℕ
  downloadCount : ℕ
  deriving DecidableEq

/-- A column after `save`: it is set where the entity differs from the row that has been reloaded. -/
def column {α : Type} [DecidableEq α] (entity reloaded row : α) : α :=
  if entity = reloaded then row else entity

/-- The row after the UPDATE of `save`. -/
def Link.saved (entity reloaded row : Link) : Link where
  token := column entity.token reloaded.token row.token
  password := column entity.password reloaded.password row.password
  expiresAt := column entity.expiresAt reloaded.expiresAt row.expiresAt
  lockedUntil := column entity.lockedUntil reloaded.lockedUntil row.lockedUntil
  isActive := column entity.isActive reloaded.isActive row.isActive
  failedAttempts := column entity.failedAttempts reloaded.failedAttempts row.failedAttempts
  isFolder := column entity.isFolder reloaded.isFolder row.isFolder
  allowUpload := column entity.allowUpload reloaded.allowUpload row.allowUpload
  userId := column entity.userId reloaded.userId row.userId
  fileId := column entity.fileId reloaded.fileId row.fileId
  maxDownloads := column entity.maxDownloads reloaded.maxDownloads row.maxDownloads
  downloadCount := column entity.downloadCount reloaded.downloadCount row.downloadCount

/-- The link is live and its limit is not reached. -/
def Link.admits (link : Link) (now : ℕ) : Bool :=
  link.isActive && link.expiresAt.all (now < ·) && link.maxDownloads.all (link.downloadCount < ·)

/-! ## Requests -/

/-- What is downloaded: the shared file, a file of the shared folder, or the folder as an archive. -/
inductive Download where
  | file
  | folderFile (fileId : ℕ)
  | archive
  deriving DecidableEq

/-- What a statement sees, and the time it goes by. -/
structure View where
  link : Link
  db : Db
  now : ℕ

/-- `EXISTS (SELECT 1 FROM allowed)`, where there is such a condition. -/
def View.allowed (view : View) : Download → Bool
  | .file => true
  | .folderFile fileId => (view.db.shareContext view.link.toShareLink view.now).any
      fun context => view.db.sharedFile context.1 context.2 fileId
  | .archive => (view.db.shareContext view.link.toShareLink view.now).any
      fun context => view.db.validRoot context.1 context.2

/-- What is downloaded is a live part of the live tree that the live link shares. -/
def View.Live (view : View) : Download → Prop
  | .file => True
  | .folderFile fileId => ∃ context, view.db.shareContext view.link.toShareLink view.now = some context ∧
      LiveMember view.db context.1 context.2 fileId
  | .archive => ∃ context, view.db.shareContext view.link.toShareLink view.now = some context ∧
      LiveRoot view.db context.1 context.2

/-- How far a request has come: its UPDATE is started, or has counted it or not. -/
inductive Phase where
  | waiting
  | started (view : View)
  | done (result : Except Err ℕ)

structure Request where
  download : Download
  phase : Phase

def Request.admitted (r : Request) : Bool :=
  match r.phase with
  | .done (.ok _) => true
  | _ => false

/-- How far a revocation has come: it has read the entity, and the row again to save it. -/
inductive Saving where
  | waiting
  | loaded (entity : Link)
  | reloaded (entity row : Link)
  | done (result : Except Err Unit)

structure Revocation where
  userId : ℕ
  saving : Saving

/-- The row of the link, the tables of the tree it shares, the clock of the database, and what is under
way. -/
structure DownloadState where
  link : Link
  db : Db
  now : ℕ
  requests : List Request
  revocations : List Revocation

namespace DownloadState

variable (s : DownloadState) (i : ℕ)

/-- The request `i` gets to the phase. -/
def move (download : Download) (phase : Phase) : DownloadState :=
  { s with requests := s.requests.set i ⟨download, phase⟩ }

/-- The revocation `i` gets on. -/
def get (userId : ℕ) (saving : Saving) : DownloadState :=
  { s with revocations := s.revocations.set i ⟨userId, saving⟩ }

/-- The UPDATE of the request `i` is started, or gets the row. It takes the row when both the one it has
seen and the one it gets admit, at the time it has been started. -/
def run : Option DownloadState := do
  let r ← s.requests[i]?
  match r.phase with
  | .waiting => some (s.move i r.download (.started ⟨s.link, s.db, s.now⟩))
  | .started view =>
    if view.link.admits view.now && s.link.admits view.now && view.allowed r.download then
      let link := { s.link with downloadCount := s.link.downloadCount + 1 }
      some ({ s with link := link }.move i r.download (.done (.ok link.downloadCount)))
    else
      some (s.move i r.download (.done (.error (.notFound "Share link not found or expired"))))
  | .done _ => none

/-- The next statement of the revocation `i`. -/
def save : Option DownloadState := do
  let r ← s.revocations[i]?
  match r.saving with
  | .waiting =>
    if s.link.userId = r.userId then
      some (s.get i r.userId (.loaded { s.link with isActive := false }))
    else some (s.get i r.userId (.done (.error (.notFound "Share link not found"))))
  | .loaded entity => some (s.get i r.userId (.reloaded entity s.link))
  | .reloaded entity row =>
    some ({ s with link := entity.saved row s.link }.get i r.userId (.done (.ok ())))
  | .done _ => none

end DownloadState

/-- The clock goes on, others change the tables or the counters of password attempts, someone starts a
download or revokes the share, or one of these runs a statement. -/
inductive Move where
  | tick (n : ℕ)
  | tables (db : Db)
  | attempt (failedAttempts : ℕ) (lockedUntil : Option ℕ)
  | request (download : Download)
  | revoke (userId : ℕ)
  | run (i : ℕ)
  | save (i : ℕ)

def DownloadState.next (s : DownloadState) : Move → Option DownloadState
  | .tick n => some { s with now := s.now + n }
  | .tables db => some { s with db := db }
  | .attempt failedAttempts lockedUntil => some { s with
      link := { s.link with failedAttempts := failedAttempts, lockedUntil := lockedUntil } }
  | .request download => some { s with requests := s.requests ++ [⟨download, .waiting⟩] }
  | .revoke userId => some { s with revocations := s.revocations ++ [⟨userId, .waiting⟩] }
  | .run i => s.run i
  | .save i => s.save i

/-- A new link. -/
structure Fresh (s : DownloadState) : Prop where
  downloadCount : s.link.downloadCount = 0
  requests : s.requests = []
  revocations : s.revocations = []

/-- The states of runs in which every step satisfies `ok`. -/
inductive Reached (ok : Move → DownloadState → Bool) : DownloadState → Prop
  | start {s} : Fresh s → Reached ok s
  | step {s s'} (m : Move) : Reached ok s → ok m s = true → s.next m = some s' → Reached ok s'

/-- A run in which every step satisfies `ok` is one in which every step satisfies what follows from it. -/
theorem Reached.mono {ok ok' : Move → DownloadState → Bool} {s : DownloadState} (h : Reached ok s)
    (hok : ∀ m t, ok m t = true → ok' m t = true) : Reached ok' s := by
  induction h with
  | start hs => exact .start hs
  | step m _ hm hnext ih => exact ih.step m (hok m _ hm) hnext

/-- The row that a revocation reloads has the count that it has read before. -/
def countKept (m : Move) (s : DownloadState) : Bool :=
  match m with
  | .save i => (s.revocations[i]?).all fun r =>
    match r.saving with
    | .loaded entity => entity.downloadCount = s.link.downloadCount
    | _ => true
  | _ => true

/-! ## What a statement does -/

section Steps

variable {s s' : DownloadState} {i : ℕ} {ok : Move → DownloadState → Bool}

/-- What the statement of a request does: it starts, is admitted, or refused. -/
inductive Ran (s : DownloadState) (i : ℕ) (download : Download) : Phase → DownloadState → Prop
  | started : Ran s i download .waiting (s.move i download (.started ⟨s.link, s.db, s.now⟩))
  | admitted {view} : view.link.admits view.now = true → s.link.admits view.now = true →
      view.allowed download = true → Ran s i download (.started view)
        ({ s with link := { s.link with downloadCount := s.link.downloadCount + 1 } }.move i download
          (.done (.ok (s.link.downloadCount + 1))))
  | refused {view} : Ran s i download (.started view)
      (s.move i download (.done (.error (.notFound "Share link not found or expired"))))

/-- **What the statement of a request does.** -/
theorem ran_of_run (h : s.run i = some s') :
    ∃ r, s.requests[i]? = some r ∧ Ran s i r.download r.phase s' := by
  unfold DownloadState.run at h
  cases hr : s.requests[i]? with
  | none =>
    rw [hr] at h
    cases h
  | some r =>
    refine ⟨r, rfl, ?_⟩
    simp only [hr, Option.bind_eq_bind, Option.bind_some] at h
    cases hphase : r.phase with
    | waiting =>
      rw [hphase] at h
      cases h
      exact .started
    | started view =>
      rw [hphase] at h
      dsimp only at h
      split_ifs at h with hadmits
      · cases h
        simp only [Bool.and_eq_true] at hadmits
        exact .admitted hadmits.1.1 hadmits.1.2 hadmits.2
      · cases h
        exact .refused
    | done result =>
      rw [hphase] at h
      cases h

/-- What the statement of a revocation does: it reads the entity, finds none, reads the row again, or
updates it. -/
inductive Saved (s : DownloadState) (i userId : ℕ) : Saving → DownloadState → Prop
  | loaded : s.link.userId = userId → Saved s i userId .waiting
      (s.get i userId (.loaded { s.link with isActive := false }))
  | missing : Saved s i userId .waiting
      (s.get i userId (.done (.error (.notFound "Share link not found"))))
  | reloaded {entity} : Saved s i userId (.loaded entity) (s.get i userId (.reloaded entity s.link))
  | updated {entity row} : Saved s i userId (.reloaded entity row)
      ({ s with link := entity.saved row s.link }.get i userId (.done (.ok ())))

/-- **What the statement of a revocation does.** -/
theorem saved_of_save (h : s.save i = some s') :
    ∃ r, s.revocations[i]? = some r ∧ Saved s i r.userId r.saving s' := by
  unfold DownloadState.save at h
  cases hr : s.revocations[i]? with
  | none =>
    rw [hr] at h
    cases h
  | some r =>
    refine ⟨r, rfl, ?_⟩
    simp only [hr, Option.bind_eq_bind, Option.bind_some] at h
    cases hsaving : r.saving with
    | waiting =>
      rw [hsaving] at h
      dsimp only at h
      split_ifs at h with huser
      · cases h
        exact .loaded huser
      · cases h
        exact .missing
    | loaded entity =>
      rw [hsaving] at h
      cases h
      exact .reloaded
    | reloaded entity row =>
      rw [hsaving] at h
      cases h
      exact .updated
    | done result =>
      rw [hsaving] at h
      cases h

/-! ## The limit -/

/-- The count of a link that has a limit does not exceed it. -/
def Link.WithinLimit (link : Link) : Prop :=
  ∀ limit, link.maxDownloads = some limit → link.downloadCount ≤ limit

/-- What a revocation has read is within the limit. -/
def Saving.Within (link : Link) : Saving → Prop
  | .loaded entity => entity.maxDownloads = link.maxDownloads ∧ entity.WithinLimit
  | .reloaded entity row => (entity.maxDownloads = link.maxDownloads ∧ entity.WithinLimit) ∧
    row.maxDownloads = link.maxDownloads
  | _ => True

/-- What holds in every reachable state. -/
structure Limited (s : DownloadState) : Prop where
  limit : s.link.WithinLimit
  savings : ∀ r ∈ s.revocations, r.saving.Within s.link

theorem Saving.Within.congr {link link' : Link} {saving : Saving} (h : saving.Within link)
    (hmax : link'.maxDownloads = link.maxDownloads) : saving.Within link' := by
  cases saving with
  | loaded => exact ⟨h.1.trans hmax.symm, h.2⟩
  | reloaded => exact ⟨⟨h.1.1.trans hmax.symm, h.1.2⟩, h.2.trans hmax.symm⟩
  | waiting => trivial
  | done => trivial

/-- The row changes and keeps its limit. -/
theorem Limited.link (h : Limited s) (link : Link) (hmax : link.maxDownloads = s.link.maxDownloads)
    (hle : link.WithinLimit) :
    Limited { s with link := link } :=
  ⟨hle, fun r hr => (h.savings r hr).congr hmax⟩

theorem Limited.move {download : Download} {phase : Phase} (h : Limited s) :
    Limited (s.move i download phase) :=
  ⟨h.limit, h.savings⟩

theorem Limited.get {userId : ℕ} {saving : Saving} (h : Limited s) (hsaving : saving.Within s.link) :
    Limited (s.get i userId saving) := by
  refine ⟨h.limit, fun r hr => ?_⟩
  rcases List.mem_or_eq_of_mem_set hr with hr | rfl
  · exact h.savings r hr
  · exact hsaving

theorem admits_lt {link : Link} {now limit : ℕ} (h : link.admits now = true)
    (hlimit : link.maxDownloads = some limit) : link.downloadCount < limit := by
  rw [Link.admits, Bool.and_eq_true, hlimit, Option.all_some] at h
  exact of_decide_eq_true h.2

theorem column_or {α : Type} [DecidableEq α] (entity reloaded row : α) :
    column entity reloaded row = row ∨ column entity reloaded row = entity := by
  unfold column
  split_ifs
  · exact .inl rfl
  · exact .inr rfl

/-- **Every step keeps the limit.** -/
theorem Limited.next {m : Move} (h : Limited s) (hnext : s.next m = some s') : Limited s' := by
  cases m with
  | tick n =>
    cases hnext
    exact ⟨h.limit, h.savings⟩
  | tables db =>
    cases hnext
    exact ⟨h.limit, h.savings⟩
  | attempt failedAttempts lockedUntil =>
    cases hnext
    exact h.link _ rfl h.limit
  | request download =>
    cases hnext
    exact ⟨h.limit, h.savings⟩
  | revoke userId =>
    cases hnext
    refine ⟨h.limit, fun r hr => ?_⟩
    rcases List.mem_append.mp hr with hr | hr
    · exact h.savings r hr
    · rw [List.mem_singleton.mp hr]
      trivial
  | run i =>
    obtain ⟨r, -, hran⟩ := ran_of_run hnext
    generalize r.phase = phase at hran
    cases hran with
    | started => exact h.move
    | admitted _ hadmits _ =>
      exact (h.link { s.link with downloadCount := s.link.downloadCount + 1 } rfl
        fun limit hlimit => admits_lt hadmits hlimit).move
    | refused => exact h.move
  | save i =>
    obtain ⟨r, hr, hsaved⟩ := saved_of_save hnext
    have hwithin := h.savings r (List.mem_of_getElem? hr)
    generalize r.saving = saving at hsaved hwithin
    cases hsaved with
    | loaded => exact h.get ⟨rfl, h.limit⟩
    | missing => exact h.get trivial
    | reloaded => exact h.get ⟨hwithin, rfl⟩
    | @updated entity row =>
      obtain ⟨⟨hmax, hle⟩, hrow⟩ := hwithin
      have hkept : (entity.saved row s.link).maxDownloads = s.link.maxDownloads :=
        if_pos (hmax.trans hrow.symm)
      refine (h.link _ hkept ?_).get trivial
      intro limit hlimit
      rcases column_or entity.downloadCount row.downloadCount s.link.downloadCount with hc | hc
      · exact hc.trans_le (h.limit limit (hkept.symm.trans hlimit))
      · exact hc.trans_le (hle limit (hmax.trans (hkept.symm.trans hlimit)))

theorem Reached.limited (h : Reached ok s) : Limited s := by
  induction h with
  | start hfresh =>
    refine ⟨fun limit _ => ?_, fun r hr => ?_⟩
    · rw [hfresh.downloadCount]
      exact Nat.zero_le _
    · rw [hfresh.revocations] at hr
      cases hr
  | step _ _ _ hnext ih => exact ih.next hnext

/-! ## The count -/

/-- What holds in every state of a run in which revocations reload the count they have read. -/
structure Counted (s : DownloadState) : Prop where
  count : s.link.downloadCount = s.requests.countP Request.admitted
  savings : ∀ r ∈ s.revocations, ∀ entity row, r.saving = .reloaded entity row →
    entity.downloadCount = row.downloadCount

theorem Counted.move {download : Download} {phase : Phase} (h : Counted s)
    (hcount : s.link.downloadCount =
      (s.requests.set i ⟨download, phase⟩).countP Request.admitted) :
    Counted (s.move i download phase) :=
  ⟨hcount, h.savings⟩

theorem Counted.get {userId : ℕ} {saving : Saving} (h : Counted s)
    (hsaving : ∀ entity row, saving = .reloaded entity row →
      entity.downloadCount = row.downloadCount) : Counted (s.get i userId saving) := by
  refine ⟨h.count, fun r hr => ?_⟩
  rcases List.mem_or_eq_of_mem_set hr with hr | rfl
  · exact h.savings r hr
  · exact hsaving

/-- The number of admitted requests when one that was not admitted gets to a phase. -/
theorem countP_admitted {r : Request} {download : Download} {phase : Phase} (hr : s.requests[i]? = some r)
    (hno : r.admitted = false) : (s.requests.set i ⟨download, phase⟩).countP Request.admitted =
      s.requests.countP Request.admitted + if Request.admitted ⟨download, phase⟩ then 1 else 0 := by
  obtain ⟨hi, hget⟩ := List.getElem?_eq_some_iff.mp hr
  rw [List.countP_set hi, hget, hno]
  rfl

/-- **Every step keeps the count, when a revocation reloads the count it has read.** -/
theorem Counted.next {m : Move} (h : Counted s) (hok : countKept m s = true)
    (hnext : s.next m = some s') : Counted s' := by
  cases m with
  | tick n =>
    cases hnext
    exact ⟨h.count, h.savings⟩
  | tables db =>
    cases hnext
    exact ⟨h.count, h.savings⟩
  | attempt failedAttempts lockedUntil =>
    cases hnext
    exact ⟨h.count, h.savings⟩
  | request download =>
    cases hnext
    refine ⟨?_, h.savings⟩
    rw [List.countP_append]
    exact h.count
  | revoke userId =>
    cases hnext
    refine ⟨h.count, fun r hr entity row hsaving => ?_⟩
    rcases List.mem_append.mp hr with hr | hr
    · exact h.savings r hr entity row hsaving
    · rw [List.mem_singleton.mp hr] at hsaving
      cases hsaving
  | run i =>
    obtain ⟨⟨download, phase⟩, hr, hran⟩ := ran_of_run hnext
    dsimp only at hran
    cases hran with
    | started =>
      refine h.move ?_
      rw [countP_admitted hr rfl]
      exact h.count
    | admitted =>
      have hcount := h.count
      refine ⟨?_, h.savings⟩
      change s.link.downloadCount + 1 = (s.requests.set i _).countP Request.admitted
      rw [countP_admitted hr rfl, hcount]
      rfl
    | refused =>
      refine h.move ?_
      rw [countP_admitted hr rfl]
      exact h.count
  | save i =>
    obtain ⟨⟨userId, saving⟩, hr, hsaved⟩ := saved_of_save hnext
    dsimp only at hsaved
    cases hsaved with
    | loaded => exact h.get fun _ _ hs => nomatch hs
    | missing => exact h.get fun _ _ hs => nomatch hs
    | reloaded =>
      refine h.get fun entity' row hs => ?_
      cases hs
      rw [countKept, hr, Option.all_some] at hok
      exact of_decide_eq_true hok
    | @updated entity row =>
      have hsame := h.savings _ (List.mem_of_getElem? hr) entity row rfl
      have hkept : (entity.saved row s.link).downloadCount = s.link.downloadCount := if_pos hsame
      have hlink : Counted { s with link := entity.saved row s.link } :=
        ⟨hkept.trans h.count, h.savings⟩
      exact hlink.get fun _ _ hs => nomatch hs

theorem Reached.counted (h : Reached countKept s) : Counted s := by
  induction h with
  | start hfresh =>
    refine ⟨?_, fun r hr => ?_⟩
    · rw [hfresh.downloadCount, hfresh.requests]
      rfl
    · rw [hfresh.revocations] at hr
      cases hr
  | step _ _ hok hnext ih => exact ih.next hok hnext

/-- What is allowed is live. -/
theorem View.live_of_allowed {view : View} {download : Download} (h : view.allowed download = true) :
    view.Live download := by
  cases download with
  | file => trivial
  | folderFile fileId =>
    obtain ⟨context, hcontext, hfile⟩ := (Option.any_eq_true ..).mp h
    exact ⟨context, hcontext, sharedFile_iff.mp hfile⟩
  | archive =>
    obtain ⟨context, hcontext, hroot⟩ := (Option.any_eq_true ..).mp h
    exact ⟨context, hcontext, validRoot_iff.mp hroot⟩

/-- What the UPDATE of a request does: it counts the request when the row is live and its limit is not
reached, and what is downloaded is live in what the statement sees; or it changes nothing. -/
inductive Decided (s s' : DownloadState) (i : ℕ) (download : Download) (view : View) : Prop
  | admitted : s'.requests[i]? = some ⟨download, .done (.ok (s.link.downloadCount + 1))⟩ →
      s.link.isActive = true → (∀ time, s.link.expiresAt = some time → view.now < time) →
      (∀ limit, s.link.maxDownloads = some limit → s.link.downloadCount < limit) →
      view.Live download → s'.link = { s.link with downloadCount := s.link.downloadCount + 1 } →
      Decided s s' i download view
  | refused (e : Err) : s'.requests[i]? = some ⟨download, .done (.error e)⟩ → s'.link = s.link →
      Decided s s' i download view

theorem decided_of_run {download : Download} {view : View}
    (hr : s.requests[i]? = some ⟨download, .started view⟩) (h : s.next (.run i) = some s') :
    Decided s s' i download view := by
  obtain ⟨r, hr', hran⟩ := ran_of_run h
  cases hr.symm.trans hr'
  have hi := (List.getElem?_eq_some_iff.mp hr).1
  cases hran with
  | admitted _ hadmits hallowed =>
    have hlive := hadmits
    simp only [Link.admits, Bool.and_eq_true] at hlive
    refine .admitted (List.getElem?_set_self hi) hlive.1.1 (fun time ht => ?_)
      (fun limit => admits_lt hadmits) (View.live_of_allowed hallowed) rfl
    have hexpires := hlive.1.2
    rw [ht, Option.all_some] at hexpires
    exact of_decide_eq_true hexpires
  | refused => exact .refused _ (List.getElem?_set_self hi) rfl

end Steps

/-- **The count of a link never exceeds its limit; a request is admitted only while the link is live and
what it downloads is, and a refused one changes nothing; and in runs in which every revocation reloads
the count it has read, the count is the number of admitted requests.** -/
theorem download_limit (ok : Move → DownloadState → Bool) (s : DownloadState) (hs : Reached ok s) :
    s.link.WithinLimit ∧
    (∀ i download view s', s.requests[i]? = some ⟨download, .started view⟩ → s.next (.run i) = some s' →
      Decided s s' i download view) ∧
    ((∀ m t, ok m t = true → countKept m t = true) →
      s.link.downloadCount = s.requests.countP Request.admitted) :=
  ⟨hs.limited.limit, fun _ _ _ _ => decided_of_run, fun hkept => (hs.mono hkept).counted.count⟩

/-! ## Runs -/

/-- The state after the moves, when `ok` is true on the way. -/
def DownloadState.after (ok : Move → DownloadState → Bool) :
    DownloadState → List Move → Option DownloadState
  | s, [] => some s
  | s, m :: moves => if ok m s then (s.next m).bind (after ok · moves) else none

theorem Reached.after {ok : Move → DownloadState → Bool} {moves : List Move} {s s' : DownloadState}
    (h : Reached ok s) (hmoves : s.after ok moves = some s') : Reached ok s' := by
  induction moves generalizing s with
  | nil =>
    cases hmoves
    exact h
  | cons m moves ih =>
    rw [DownloadState.after] at hmoves
    split_ifs at hmoves with hok
    obtain ⟨s₁, hnext, hrest⟩ := Option.bind_eq_some_iff.mp hmoves
    exact ih (h.step m hok hnext) hrest

/-- A link that may be downloaded from twice, and its file. -/
def newLink : DownloadState where
  link := ⟨⟨11, none, none, none, true, 0, false, false, 1, 1⟩, some 2, 0⟩
  db := { Db.empty (Table.empty.insert ⟨0, 0, true, 0, 0⟩) with
    files := Table.empty.insert ⟨.ofJs [97], none, 0, none, none, false, false, none, none, none, none, 1⟩ }
  now := 0
  requests := []
  revocations := []

theorem exists_reached (ok : Move → DownloadState → Bool) (moves : List Move)
    (p : DownloadState → Bool) (h : (newLink.after ok moves).any p = true) :
    ∃ s, Reached ok s ∧ p s = true := by
  obtain ⟨s, hs, hp⟩ := (Option.any_eq_true ..).mp h
  exact ⟨s, (Reached.start ⟨rfl, rfl, rfl⟩).after hs, hp⟩

/-- Two requests are admitted, a third is refused, and the link is revoked. -/
theorem download_limit_of_run : ∃ s, Reached countKept s ∧ s.link.isActive = false ∧
    s.requests.length = 3 ∧ s.link.WithinLimit ∧
    s.link.downloadCount = s.requests.countP Request.admitted := by
  obtain ⟨s, hs, hp⟩ := exists_reached countKept
    [.request .file, .run 0, .request .file, .run 1, .run 1, .request .file, .run 0, .revoke 1, .save 0,
      .run 2, .run 2, .save 0, .save 0] (fun s => !s.link.isActive && s.requests.length = 3)
    (by decide +kernel)
  simp only [Bool.and_eq_true, Bool.not_eq_true', decide_eq_true_eq] at hp
  have hlaw := download_limit countKept s hs
  exact ⟨s, hs, hp.1, hp.2, hlaw.1, hlaw.2.2 fun _ _ h => h⟩

/-- A request is admitted after a revocation has read the row, and the revocation takes the count
back. -/
theorem not_download_limit : ¬ ∀ s, Reached (fun _ _ => true) s →
    s.link.downloadCount = s.requests.countP Request.admitted := by
  intro h
  obtain ⟨s, hs, hp⟩ := exists_reached (fun _ _ => true)
    [.request .file, .revoke 1, .save 0, .run 0, .run 0, .save 0, .save 0]
    (fun s => s.link.downloadCount = 0 && s.requests.countP Request.admitted = 1) (by decide +kernel)
  simp only [Bool.and_eq_true, decide_eq_true_eq] at hp
  have hcount := h s hs
  rw [hp.1, hp.2] at hcount
  cases hcount

end Downloads

end HomeCloud
