import HomeCloud.Statements
import Mathlib.Logic.Relation

/-!
# Download capabilities

Tokens that download a file or an archive without a session. They are issued and used statement by
statement, next to any change of the users and the files.

* `Service`: what the two services differ in; `downloadCapabilities`, `archiveDownloads`.
* `Store.issue`, `Store.authorize`: the statements on the table of a service.
* `Sound`: what holds of a table in every reachable state; `Sound.next`.
* **`capabilities_one_shot`**: how often, for what and when a token is accepted.
-/

namespace HomeCloud

namespace Capabilities

open Concurrent Relation

/-! ## The services -/

/-- A row: the hash of a token, whose it is, what it downloads and until when. -/
structure Row (R : Type) where
  tokenHash : JsString
  userId : ℕ
  resource : R
  expiresAt : ℕ
  deriving DecidableEq

/-- What the services differ in: the limits of the counts, what a request names of a resource, and the
conditions of the table and of the use. -/
structure Service (K R : Type) where
  replaces : Bool
  total : ℕ
  own : ℕ
  busy : String
  missing : String
  key : R → K
  isKey : K → Bool
  clash : Row R → Row R → Bool
  references : Db → Row R → Bool
  available : Db → Row R → Bool

/-- An archive, and what it is made of. -/
structure Archive (M : Type) where
  id : JsString
  manifest : M
  deriving DecidableEq

/-- `DownloadCapabilityService`: the resource is a file. -/
def downloadCapabilities : Service ℕ ℕ where
  replaces := true
  total := 10000
  own := 8
  busy := "Too many pending downloads"
  missing := "Download unavailable"
  key fileId := fileId
  isKey _ := true
  clash row row' := row.tokenHash = row'.tokenHash || (row.userId = row'.userId && row.resource = row'.resource)
  references db row := (db.users.get row.userId).isSome && (db.files.get row.resource).isSome
  available db row := (db.users.get row.userId).any (·.isActive) &&
    (db.files.get row.resource).any fun file => file.userId = row.userId && !file.isDeleted && !file.isFolder

/-- `ArchiveDownloadsService`. -/
def archiveDownloads (M : Type) : Service JsString (Archive M) where
  replaces := false
  total := 1000
  own := 2
  busy := "Too many pending archives"
  missing := "Archive unavailable"
  key := Archive.id
  isKey := isHex 32
  clash row row' := row.resource.id = row'.resource.id
  references db row := (db.users.get row.userId).isSome
  available db row := (db.users.get row.userId).any (·.isActive)

/-! ## Issue and use -/

/-- The statements of the transaction of an issue. -/
inductive Statement where
  | lock
  | prune
  | replace
  | count
  | insert
  | commit

/-- A transaction: what `NOW()` is in it, and the rows it has deleted and inserted. -/
structure Transaction (R : Type) where
  now : ℕ
  deleted : List (Row R)
  inserted : Option (Row R)

/-- How far an issue has come: its transaction has begun, and runs the statement next. -/
inductive Progress (R : Type) where
  | waiting
  | running (next : Statement) (tx : Transaction R)
  | done (started : ℕ)
  | failed (e : Err)

/-- The transaction has the advisory lock. -/
def Progress.holds {R : Type} : Progress R → Bool
  | .running .lock _ => false
  | .running _ _ => true
  | _ => false

/-- The issue of a token. -/
structure Issue (R : Type) where
  userId : ℕ
  resource : R
  token : JsString
  progress : Progress R

/-- What a statement sees, and the time it goes by. -/
structure View (R : Type) where
  now : ℕ
  db : Db
  rows : List (Row R)

/-- How far a use has come: its statement is started, or has returned a row or none. -/
inductive Phase (R : Type) where
  | waiting
  | started (view : View R)
  | accepted (view : View R) (row : Row R)
  | refused (e : Err)

/-- The use of a token for what is named, to begin a download or only to ask about it. -/
structure Authorization (K R : Type) where
  key : K
  token : Option JsString
  consume : Bool
  phase : Phase R

/-- The table of a service, and what has been asked of it. -/
structure Store (K R : Type) where
  rows : List (Row R)
  issues : Table (Issue R)
  authorizations : Table (Authorization K R)

variable {K R : Type} [DecidableEq K] [DecidableEq R] (S : Service K R) (hash : JsString → JsString)

/-- The row of a token that was issued in a transaction. -/
def Issue.row (issue : Issue R) (started : ℕ) : Row R :=
  ⟨hash issue.token, issue.userId, issue.resource, started + 120 * 1000⟩

/-- The `WHERE` of a use. -/
def Authorization.scope (a : Authorization K R) (view : View R) (row : Row R) : Bool :=
  S.key row.resource = a.key && a.token.any (hash · = row.tokenHash) && view.now < row.expiresAt &&
    S.available view.db row

namespace Store

variable (s : Store K R)

/-- The rows that a transaction sees. -/
def visible (tx : Transaction R) : List (Row R) := s.rows.filter (· ∉ tx.deleted)

/-- `COUNT(*) FILTER (WHERE "userId" = $1)`. -/
def own (tx : Transaction R) (userId : ℕ) : ℕ := (s.visible tx).countP (·.userId = userId)

/-- Someone has the advisory lock. -/
def isLocked : Bool := !(s.issues.select fun _ issue => issue.progress.holds).isEmpty

/-- A transaction under way has deleted the row. -/
def isDeleted (row : Row R) : Bool :=
  !(s.issues.select fun _ issue => match issue.progress with
    | .running _ tx => row ∈ tx.deleted
    | _ => false).isEmpty

def proceed (i : ℕ) (issue : Issue R) (progress : Progress R) : Store K R :=
  { s with issues := s.issues.put i { issue with progress := progress } }

def answer (j : ℕ) (a : Authorization K R) (phase : Phase R) : Store K R :=
  { s with authorizations := s.authorizations.put j { a with phase := phase } }

def keep (p : Row R → Bool) : Store K R := { s with rows := s.rows.filter p }

/-- The next statement of the transaction of `issue` and `prepare`. -/
def issue (now : ℕ) (db : Db) (i : ℕ) : Option (Store K R) := do
  let issue ← s.issues.get i
  match issue.progress with
  | .waiting => some (s.proceed i issue (.running .lock ⟨now, [], none⟩))
  | .running .lock tx => if s.isLocked then none else some (s.proceed i issue (.running .prune tx))
  | .running .prune tx =>
    let expired := (s.visible tx).filter (·.expiresAt ≤ tx.now)
    some (s.proceed i issue (.running (if S.replaces then .replace else .count)
      { tx with deleted := tx.deleted ++ expired }))
  | .running .replace tx =>
    let same := (s.visible tx).filter fun row => row.userId = issue.userId && S.key row.resource = S.key issue.resource
    some (s.proceed i issue (.running .count { tx with deleted := tx.deleted ++ same }))
  | .running .count tx =>
    if S.total ≤ (s.visible tx).length || S.own ≤ s.own tx issue.userId then
      some (s.proceed i issue (.failed (.tooManyRequests S.busy)))
    else some (s.proceed i issue (.running .insert tx))
  | .running .insert tx =>
    let row := issue.row hash tx.now
    if (s.visible tx).any (S.clash row) then some (s.proceed i issue (.failed (.database .constraint)))
    else if S.references db row then some (s.proceed i issue (.running .commit { tx with inserted := some row }))
    else some (s.proceed i issue (.failed (.database .constraint)))
  | .running .commit tx =>
    some { s.proceed i issue (.done tx.now) with rows := s.visible tx ++ tx.inserted.toList }
  | .done _ => none
  | .failed _ => none

/-- The next step of `authorize`: its checks, or its one statement, that waits for the rows it deletes. -/
def authorize (now : ℕ) (db : Db) (j : ℕ) : Option (Store K R) := do
  let a ← s.authorizations.get j
  match a.phase with
  | .waiting =>
    if S.isKey a.key && a.token.any (isHex 64) then some (s.answer j a (.started ⟨now, db, s.rows⟩))
    else some (s.answer j a (.refused (.notFound S.missing)))
  | .started view =>
    let found := view.rows.filter (a.scope S hash view)
    if a.consume then
      let removed := found.filter (· ∈ s.rows)
      if removed.any s.isDeleted then none
      else match removed with
        | [row] => some ((s.keep (· ≠ row)).answer j a (.accepted view row))
        | _ => some ((s.keep (· ∉ removed)).answer j a (.refused (.notFound S.missing)))
    else match found with
      | [row] => some (s.answer j a (.accepted view row))
      | _ => some (s.answer j a (.refused (.notFound S.missing)))
  | .accepted _ _ => none
  | .refused _ => none

end Store

/-- Someone is issued a token that nobody has been issued before, or uses one; one of these goes on or
fails; or rows go with the users and the files they reference. -/
inductive StoreMove (K R : Type) where
  | begin (userId : ℕ) (resource : R) (token : JsString)
  | use (key : K) (token : Option JsString) (consume : Bool)
  | issue (i : ℕ)
  | authorize (j : ℕ)
  | abandon (i : ℕ)
  | disconnect (j : ℕ)

def Store.next (now : ℕ) (db : Db) (s : Store K R) : StoreMove K R → Option (Store K R)
  | .begin userId resource token =>
    if S.isKey (S.key resource) && isHex 64 token &&
        (s.issues.select fun _ issue => hash issue.token = hash token).isEmpty then
      some { s with issues := s.issues.insert ⟨userId, resource, token, .waiting⟩ }
    else none
  | .use key token consume =>
    some { s with authorizations := s.authorizations.insert ⟨key, token, consume, .waiting⟩ }
  | .issue i => s.issue S hash now db i
  | .authorize j => s.authorize S hash now db j
  | .abandon i => do
    let issue ← s.issues.get i
    match issue.progress with
    | .done _ => none
    | _ => some (s.proceed i issue (.failed (.database .connectionLost)))
  | .disconnect j => do
    let a ← s.authorizations.get j
    match a.phase with
    | .accepted _ _ => none
    | _ => some (s.answer j a (.refused (.database .connectionLost)))

/-- The clock, the users and the files, and the tables of the two services. -/
structure State (M : Type) where
  now : ℕ
  db : Db
  files : Store ℕ ℕ
  archives : Store JsString (Archive M)

/-- The clock goes on, others change the users and the files, or something is asked of a service. -/
inductive Move (M : Type) where
  | tick (n : ℕ)
  | tables (db : Db)
  | file (m : StoreMove ℕ ℕ)
  | archive (m : StoreMove JsString (Archive M))

variable {M : Type} [DecidableEq M]

def State.next (s : State M) : Move M → Option (State M)
  | .tick n => some { s with now := s.now + n }
  | .tables db => some { s with
      db := db
      files := s.files.keep (downloadCapabilities.references db)
      archives := s.archives.keep ((archiveDownloads M).references db) }
  | .file m => (s.files.next downloadCapabilities hash s.now s.db m).map fun files => { s with files := files }
  | .archive m => (s.archives.next (archiveDownloads M) hash s.now s.db m).map
      fun archives => { s with archives := archives }

/-- The services before anything is asked of them. -/
structure Fresh (s : State M) : Prop where
  files : s.files = ⟨[], .empty, .empty⟩
  archives : s.archives = ⟨[], .empty, .empty⟩

/-- `s'` comes after `s`. -/
def Later : State M → State M → Prop := ReflTransGen fun s s' => ∃ m, s.next hash m = some s'

/-- The reachable states. -/
def Reached (s : State M) : Prop := ∃ s₀, Fresh s₀ ∧ Later hash s₀ s

/-! ## What a step does -/

section Steps

variable {S hash} {now : ℕ} {db : Db} {s s' : Store K R} {issue : Issue R} {a : Authorization K R} {i j : ℕ}

/-- What a view of a use is taken at. -/
def Phase.view : Phase R → Option (View R)
  | .started view => some view
  | .accepted view _ => some view
  | _ => none

variable (S hash s issue) in
/-- How an issue gets on with the rows as they are. -/
inductive Turn : Progress R → Progress R → Prop
  | begun (now : ℕ) : Turn .waiting (.running .lock ⟨now, [], none⟩)
  | locked {tx} : s.isLocked = false → Turn (.running .lock tx) (.running .prune tx)
  | pruned {tx next rows} : next = .replace ∨ next = .count →
      Turn (.running .prune tx) (.running next { tx with deleted := rows })
  | replaced {tx rows} : Turn (.running .replace tx) (.running .count { tx with deleted := rows })
  | counted {tx} : s.own tx issue.userId < S.own → Turn (.running .count tx) (.running .insert tx)
  | inserted {tx} : Turn (.running .insert tx) (.running .commit { tx with inserted := some (issue.row hash tx.now) })
  | failed {progress e} : (∀ started, progress ≠ .done started) → Turn progress (.failed e)

/-- **What the transaction of an issue does.** -/
theorem issue_cases (h : s.issue S hash now db i = some s') : ∃ issue, s.issues.get i = some issue ∧
    ((∃ progress, Turn S hash s issue issue.progress progress ∧ s' = s.proceed i issue progress) ∨
      ∃ tx, issue.progress = .running .commit tx ∧
        s' = { s.proceed i issue (.done tx.now) with rows := s.visible tx ++ tx.inserted.toList }) := by
  unfold Store.issue at h
  obtain ⟨issue, hi, h⟩ := Option.bind_eq_some_iff.mp h
  refine ⟨issue, hi, ?_⟩
  split at h
  next hp =>
    cases h
    exact .inl ⟨_, hp ▸ .begun now, rfl⟩
  next tx hp =>
    split_ifs at h with hlocked
    cases h
    exact .inl ⟨_, hp ▸ .locked (Bool.not_eq_true _ ▸ hlocked), rfl⟩
  next tx hp =>
    cases h
    refine .inl ⟨_, hp ▸ .pruned ?_, rfl⟩
    split_ifs
    · exact .inl rfl
    · exact .inr rfl
  next tx hp =>
    cases h
    exact .inl ⟨_, hp ▸ .replaced, rfl⟩
  next tx hp =>
    split_ifs at h with hfull
    · cases h
      exact .inl ⟨_, hp ▸ .failed nofun, rfl⟩
    · cases h
      simp only [Bool.or_eq_true, decide_eq_true_eq, not_or, not_le] at hfull
      exact .inl ⟨_, hp ▸ .counted hfull.2, rfl⟩
  next tx hp =>
    dsimp only at h
    split_ifs at h
    · cases h
      exact .inl ⟨_, hp ▸ .failed nofun, rfl⟩
    · cases h
      exact .inl ⟨_, hp ▸ .inserted, rfl⟩
    · cases h
      exact .inl ⟨_, hp ▸ .failed nofun, rfl⟩
  next tx hp =>
    cases h
    exact .inr ⟨tx, hp, rfl⟩
  next => cases h
  next => cases h

variable (S hash now db s a) in
/-- How a use gets on, and the table it leaves. -/
inductive Used : Store K R → Phase R → Prop
  | started : a.phase = .waiting → Used s (.started ⟨now, db, s.rows⟩)
  | consumed {view row} : a.phase = .started view → row ∈ view.rows → a.scope S hash view row = true →
      row ∈ s.rows → Used (s.keep (· ≠ row)) (.accepted view row)
  | asked {view row} : a.phase = .started view → a.consume = false → row ∈ view.rows →
      a.scope S hash view row = true → Used s (.accepted view row)
  | refused {e} : Used s (.refused e)
  | left {p e} : Used (s.keep p) (.refused e)

/-- **What the statement of a use does.** -/
theorem authorize_cases (h : s.authorize S hash now db j = some s') : ∃ a, s.authorizations.get j = some a ∧
    ∃ t phase, Used S hash now db s a t phase ∧ s' = t.answer j a phase := by
  unfold Store.authorize at h
  obtain ⟨a, hj, h⟩ := Option.bind_eq_some_iff.mp h
  refine ⟨a, hj, ?_⟩
  split at h
  next hp =>
    split_ifs at h
    · cases h
      exact ⟨s, _, .started hp, rfl⟩
    · cases h
      exact ⟨s, _, .refused, rfl⟩
  next view hp =>
    dsimp only at h
    by_cases hconsume : a.consume = true
    · rw [if_pos hconsume] at h
      split_ifs at h
      split at h
      next row hrow =>
        cases h
        obtain ⟨hfound, hmem⟩ := List.mem_filter.mp (hrow ▸ List.mem_singleton_self row)
        obtain ⟨hview, hscope⟩ := List.mem_filter.mp hfound
        exact ⟨_, _, .consumed hp hview hscope (of_decide_eq_true hmem), rfl⟩
      next =>
        cases h
        exact ⟨_, _, .left, rfl⟩
    · rw [if_neg hconsume] at h
      split at h
      next row hrow =>
        cases h
        obtain ⟨hview, hscope⟩ := List.mem_filter.mp (hrow ▸ List.mem_singleton_self row)
        exact ⟨_, _, .asked hp (Bool.not_eq_true _ ▸ hconsume) hview hscope, rfl⟩
      next =>
        cases h
        exact ⟨_, _, .refused, rfl⟩
  next => cases h
  next => cases h

end Steps

/-! ## What holds of a table -/

/-- The row is that of a token whose issue is over. -/
def Issued (s : Store K R) (row : Row R) : Prop :=
  ∃ i issue started, s.issues.get i = some issue ∧ issue.progress = .done started ∧ row = issue.row hash started

/-- What holds before a statement of a transaction: from the count on the user has room for a row. -/
def Ready (s : Store K R) (issue : Issue R) : Statement → Transaction R → Prop
  | .insert, tx => tx.inserted = none ∧ s.own tx issue.userId < S.own
  | .commit, tx => tx.inserted = some (issue.row hash tx.now) ∧ s.own tx issue.userId < S.own
  | _, tx => tx.inserted = none

/-- What holds of a table in every reachable state. -/
structure Sound (s : Store K R) : Prop where
  distinct : ∀ {i k issue issue'}, s.issues.get i = some issue → s.issues.get k = some issue' →
    hash issue.token = hash issue'.token → i = k
  alone : ∀ {i k issue issue'}, s.issues.get i = some issue → s.issues.get k = some issue' →
    issue.progress.holds = true → issue'.progress.holds = true → i = k
  running : ∀ {i issue next tx}, s.issues.get i = some issue → issue.progress = .running next tx →
    Ready S hash s issue next tx
  stored : ∀ row ∈ s.rows, Issued hash s row
  bounded : ∀ userId, s.rows.countP (·.userId = userId) ≤ S.own
  seen : ∀ {j a view}, s.authorizations.get j = some a → a.phase.view = some view →
    ∀ row ∈ view.rows, Issued hash s row
  accepted : ∀ {j a view row}, s.authorizations.get j = some a → a.phase = .accepted view row →
    row ∈ view.rows ∧ a.scope S hash view row = true ∧ (a.consume = true → row ∉ s.rows)
  once : ∀ {i j a b view view' row}, s.authorizations.get i = some a → s.authorizations.get j = some b →
    a.phase = .accepted view row → b.phase = .accepted view' row → a.consume = true → b.consume = true → i = j

section Sound

variable {S hash} {now : ℕ} {db : Db} {s s' : Store K R} {issue : Issue R} {a : Authorization K R} {i j : ℕ}

omit [DecidableEq K] in
theorem own_keep_le (p : Row R → Bool) (tx : Transaction R) (userId : ℕ) :
    (s.keep p).own tx userId ≤ s.own tx userId :=
  (List.filter_sublist.filter _).countP_le

omit [DecidableEq K] in
theorem Ready.keep {p : Row R → Bool} {next : Statement} {tx : Transaction R} (h : Ready S hash s issue next tx) :
    Ready S hash (s.keep p) issue next tx := by
  cases next with
  | insert => exact ⟨h.1, (own_keep_le p tx _).trans_lt h.2⟩
  | commit => exact ⟨h.1, (own_keep_le p tx _).trans_lt h.2⟩
  | _ => exact h

/-- **Rows may go at any time.** -/
theorem Sound.keep (h : Sound S hash s) (p : Row R → Bool) : Sound S hash (s.keep p) where
  distinct := h.distinct
  alone := h.alone
  running hi hp := (h.running hi hp).keep
  stored row hrow := h.stored row (List.mem_of_mem_filter hrow)
  bounded userId := List.filter_sublist.countP_le.trans (h.bounded userId)
  seen := h.seen
  accepted hj hp := by
    obtain ⟨hview, hscope, hgone⟩ := h.accepted hj hp
    exact ⟨hview, hscope, fun hconsume hrow => hgone hconsume (List.mem_of_mem_filter hrow)⟩
  once := h.once

/-- The row of an issue that is under way has not been issued. -/
theorem Sound.not_issued (h : Sound S hash s) (hi : s.issues.get i = some issue)
    (hp : ∀ started, issue.progress ≠ .done started) (started : ℕ) : ¬Issued hash s (issue.row hash started) := by
  rintro ⟨k, issue', started', hk, hdone, hrow⟩
  obtain rfl := h.distinct hi hk (congrArg Row.tokenHash hrow)
  cases hi.symm.trans hk
  exact hp started' hdone

omit [DecidableEq K] [DecidableEq R] in
theorem Issued.proceed {row : Row R} {progress : Progress R} (h : Issued hash s row) (hi : s.issues.get i = some issue)
    (hp : ∀ started, issue.progress ≠ .done started) : Issued hash (s.proceed i issue progress) row := by
  obtain ⟨k, issue', started, hk, hdone, hrow⟩ := h
  have hki : k ≠ i := by
    rintro rfl
    cases hi.symm.trans hk
    exact hp started hdone
  exact ⟨k, issue', started, (Table.get_put_ne _ _ hki).trans hk, hdone, hrow⟩

/-- An issue gets on: with the lock it had or nobody has, and ready for its next statement. -/
theorem Sound.proceed (h : Sound S hash s) (hi : s.issues.get i = some issue)
    (hp : ∀ started, issue.progress ≠ .done started) {progress : Progress R}
    (halone : progress.holds = true → issue.progress.holds = true ∨ s.isLocked = false)
    (hready : ∀ next tx, progress = .running next tx → Ready S hash s issue next tx) :
    Sound S hash (s.proceed i issue progress) where
  distinct {k l x y} hk hl hsame := by
    have hold {k : ℕ} {x : Issue R} (hk : (s.proceed i issue progress).issues.get k = some x) :
        ∃ y, s.issues.get k = some y ∧ y.token = x.token := by
      change (s.issues.put i _).get k = some x at hk
      rw [Table.get_put] at hk
      split_ifs at hk with hki
      · cases hk
        exact ⟨issue, hki ▸ hi, rfl⟩
      · exact ⟨x, hk, rfl⟩
    obtain ⟨x', hk', hx⟩ := hold hk
    obtain ⟨y', hl', hy⟩ := hold hl
    exact h.distinct hk' hl' (by rw [hx, hy, hsame])
  alone {k l x y} hk hl hx hy := by
    have hother {l : ℕ} {y : Issue R} (hl : s.issues.get l = some y) (hholds : y.progress.holds = true)
        (hnew : progress.holds = true) : i = l := by
      rcases halone hnew with hown | hfree
      · exact h.alone hi hl hown hholds
      · have hmem : l ∈ s.issues.select fun _ issue => issue.progress.holds := Table.mem_select.mpr ⟨y, hl, hholds⟩
        rw [Store.isLocked, Bool.not_eq_false', List.isEmpty_iff] at hfree
        rw [hfree] at hmem
        cases hmem
    change (s.issues.put i _).get k = some x at hk
    change (s.issues.put i _).get l = some y at hl
    rw [Table.get_put] at hk hl
    split_ifs at hk hl with hki hli hli
    · rw [hki, hli]
    · cases hk
      exact hki.trans (hother hl hy hx)
    · cases hl
      exact ((hother hk hx hy).symm.trans hli.symm)
    · exact h.alone hk hl hx hy
  running {k x next tx} hk hx := by
    change (s.issues.put i _).get k = some x at hk
    rw [Table.get_put] at hk
    split_ifs at hk
    · cases hk
      exact hready next tx hx
    · exact h.running hk hx
  stored row hrow := (h.stored row hrow).proceed hi hp
  bounded := h.bounded
  seen hj hview row hrow := (h.seen hj hview row hrow).proceed hi hp
  accepted := h.accepted
  once := h.once

theorem Sound.turn (h : Sound S hash s) (hi : s.issues.get i = some issue) {progress : Progress R}
    (hturn : Turn S hash s issue issue.progress progress) : Sound S hash (s.proceed i issue progress) := by
  have hrun {next : Statement} {tx : Transaction R} (hp : issue.progress = .running next tx) :
      Ready S hash s issue next tx := h.running hi hp
  generalize hp : issue.progress = old at hturn
  have hold {next : Statement} {tx : Transaction R} (ho : old = .running next tx) :
      ∀ started, issue.progress ≠ .done started := fun started => by rw [hp, ho]; nofun
  cases hturn with
  | begun now =>
    refine h.proceed hi (fun started => by rw [hp]; nofun) nofun fun next tx heq => ?_
    cases heq
    exact rfl
  | locked hfree =>
    refine h.proceed hi (hold rfl) (fun _ => .inr hfree) fun next tx heq => ?_
    have hready := hrun hp
    cases heq
    exact hready
  | pruned hnext =>
    refine h.proceed hi (hold rfl) (fun _ => .inl (by rw [hp]; rfl)) fun next tx heq => ?_
    have hready := hrun hp
    cases heq
    rcases hnext with rfl | rfl
    · exact hready
    · exact hready
  | replaced =>
    refine h.proceed hi (hold rfl) (fun _ => .inl (by rw [hp]; rfl)) fun next tx heq => ?_
    have hready := hrun hp
    cases heq
    exact hready
  | counted hroom =>
    refine h.proceed hi (hold rfl) (fun _ => .inl (by rw [hp]; rfl)) fun next tx heq => ?_
    have hready := hrun hp
    cases heq
    exact ⟨hready, hroom⟩
  | inserted =>
    refine h.proceed hi (hold rfl) (fun _ => .inl (by rw [hp]; rfl)) fun next tx heq => ?_
    have hready := hrun hp
    cases heq
    exact ⟨rfl, hready.2⟩
  | failed hdone => exact h.proceed hi (hp ▸ hdone) nofun nofun

/-- **A commit**: the new row is the only one, and its user had room for it. -/
theorem Sound.commit (h : Sound S hash s) (hi : s.issues.get i = some issue) {tx : Transaction R}
    (hp : issue.progress = .running .commit tx) :
    Sound S hash { s.proceed i issue (.done tx.now) with rows := s.visible tx ++ tx.inserted.toList } := by
  have hrunning : ∀ started, issue.progress ≠ .done started := fun started => by rw [hp]; nofun
  obtain ⟨hinserted, hroom⟩ := h.running hi hp
  have hs : Sound S hash (s.proceed i issue (.done tx.now)) := h.proceed hi hrunning nofun nofun
  have hkeep {row : Row R} (hrow : Issued hash s row) :
      Issued hash { s.proceed i issue (.done tx.now) with rows := s.visible tx ++ tx.inserted.toList } row :=
    hrow.proceed hi hrunning
  rw [hinserted] at hkeep ⊢
  refine ⟨hs.distinct, hs.alone, fun {k x next tx'} hk hx => ?_, fun row hrow => ?_, fun userId => ?_,
    fun hj hview row hrow => hkeep (h.seen hj hview row hrow), fun {j a view row} hj ha => ?_, hs.once⟩
  · have halone : x.progress.holds = false := by
      by_contra hholds
      rw [Bool.not_eq_false] at hholds
      change (s.issues.put i _).get k = some x at hk
      rw [Table.get_put] at hk
      split_ifs at hk with hki
      · cases hk
        cases hx
      · exact hki (h.alone hk hi hholds (by rw [hp]; rfl))
    rw [hx] at halone
    cases next with
    | lock => exact hs.running hk hx
    | _ => cases halone
  · rcases List.mem_append.mp hrow with hrow | hrow
    · exact hkeep (h.stored row (List.mem_of_mem_filter hrow))
    · rw [Option.toList_some, List.mem_singleton] at hrow
      exact ⟨i, _, tx.now, Table.get_put_self _ _ _, rfl, hrow⟩
  · change (s.visible tx ++ [issue.row hash tx.now]).countP _ ≤ _
    rw [List.countP_append, List.countP_singleton]
    split_ifs with huser
    · have huser' : issue.userId = userId := of_decide_eq_true huser
      exact huser' ▸ hroom
    · exact List.filter_sublist.countP_le.trans (h.bounded userId)
  · obtain ⟨hview, hscope, hgone⟩ := h.accepted hj ha
    refine ⟨hview, hscope, fun hconsume hrow => ?_⟩
    rcases List.mem_append.mp hrow with hrow | hrow
    · exact hgone hconsume (List.mem_of_mem_filter hrow)
    · rw [Option.toList_some, List.mem_singleton] at hrow
      have hissued : Issued hash s row := h.seen hj (by rw [ha]; rfl) row hview
      exact h.not_issued hi hrunning tx.now (hrow ▸ hissued)

/-- The phase of a use changes. -/
theorem Sound.answer (h : Sound S hash s) {phase : Phase R}
    (hseen : ∀ view, phase.view = some view → ∀ row ∈ view.rows, Issued hash s row)
    (haccepted : ∀ view row, phase = .accepted view row → row ∈ view.rows ∧ a.scope S hash view row = true ∧
      (a.consume = true → row ∉ s.rows ∧ ∀ k b view', s.authorizations.get k = some b → b.consume = true →
        b.phase ≠ .accepted view' row)) : Sound S hash (s.answer j a phase) where
  distinct := h.distinct
  alone := h.alone
  running := h.running
  stored := h.stored
  bounded := h.bounded
  seen {k b view} hk hview := by
    change (s.authorizations.put j _).get k = some b at hk
    rw [Table.get_put] at hk
    split_ifs at hk
    · cases hk
      exact hseen view hview
    · exact h.seen hk hview
  accepted {k b view row} hk hb := by
    change (s.authorizations.put j _).get k = some b at hk
    rw [Table.get_put] at hk
    split_ifs at hk
    · cases hk
      obtain ⟨hview, hscope, hconsumed⟩ := haccepted view row hb
      exact ⟨hview, hscope, fun hconsume => (hconsumed hconsume).1⟩
    · exact h.accepted hk hb
  once {k l b c view view' row} hk hl hb hc hconsume hconsume' := by
    change (s.authorizations.put j _).get k = some b at hk
    change (s.authorizations.put j _).get l = some c at hl
    rw [Table.get_put] at hk hl
    split_ifs at hk hl with hkj hlj hlj
    · rw [hkj, hlj]
    · cases hk
      exact absurd hc (((haccepted view row hb).2.2 hconsume).2 l c view' hl hconsume')
    · cases hl
      exact absurd hb (((haccepted view' row hc).2.2 hconsume').2 k b view hk hconsume)
    · exact h.once hk hl hb hc hconsume hconsume'

/-- **A use**: it deletes a row that is there, and no other use has had that row. -/
theorem Sound.used (h : Sound S hash s) (hj : s.authorizations.get j = some a) {t : Store K R} {phase : Phase R}
    (hused : Used S hash now db s a t phase) : Sound S hash (t.answer j a phase) := by
  cases hused with
  | started => exact h.answer (fun view hview => Option.some.inj hview ▸ h.stored) nofun
  | @consumed view row hp hview hscope hrow =>
    have hseen : ∀ row ∈ view.rows, Issued hash s row := h.seen hj (by rw [hp]; rfl)
    refine (h.keep _).answer (fun view' hview' => Option.some.inj hview' ▸ hseen) fun view' row' heq => ?_
    cases heq
    refine ⟨hview, hscope, fun _ => ⟨fun hmem => ?_, fun k b view' hk hconsume hb => ?_⟩⟩
    · exact of_decide_eq_true (List.mem_filter.mp hmem).2 rfl
    · exact (h.accepted hk hb).2.2 hconsume hrow
  | @asked view row hp hconsume hview hscope =>
    have hseen : ∀ row ∈ view.rows, Issued hash s row := h.seen hj (by rw [hp]; rfl)
    refine h.answer (fun view' hview' => Option.some.inj hview' ▸ hseen) fun view' row' heq => ?_
    cases heq
    exact ⟨hview, hscope, fun htrue => absurd htrue (by rw [hconsume]; exact Bool.false_ne_true)⟩
  | refused => exact h.answer nofun nofun
  | left => exact (h.keep _).answer nofun nofun

/-- **Every step keeps what holds of a table.** -/
theorem Sound.next (h : Sound S hash s) {m : StoreMove K R} (hnext : s.next S hash now db m = some s') :
    Sound S hash s' := by
  cases m with
  | begin userId resource token =>
    simp only [Store.next] at hnext
    split_ifs at hnext with hok
    cases hnext
    rw [Bool.and_eq_true, List.isEmpty_iff] at hok
    have hfresh {k : ℕ} {x : Issue R} (hk : s.issues.get k = some x) : hash x.token ≠ hash token := fun heq => by
      have hmem : k ∈ s.issues.select fun _ issue => hash issue.token = hash token :=
        Table.mem_select.mpr ⟨x, hk, decide_eq_true heq⟩
      rw [hok.2] at hmem
      cases hmem
    have hissued {row : Row R} (hrow : Issued hash s row) :
        Issued hash { s with issues := s.issues.insert ⟨userId, resource, token, .waiting⟩ } row := by
      obtain ⟨k, x, started, hk, hx⟩ := hrow
      exact ⟨k, x, started, Table.get_insert_of_some hk, hx⟩
    refine ⟨fun {k l x y} hk hl hsame => ?_, fun {k l x y} hk hl hx hy => ?_, fun {k x next tx} hk hx => ?_,
      fun row hrow => hissued (h.stored row hrow), h.bounded,
      fun hj hview row hrow => hissued (h.seen hj hview row hrow), h.accepted, h.once⟩
    · rw [Table.get_insert] at hk hl
      split_ifs at hk hl with hkb hlb hlb
      · rw [hkb, hlb]
      · cases hk
        exact absurd hsame.symm (hfresh hl)
      · cases hl
        exact absurd hsame (hfresh hk)
      · exact h.distinct hk hl hsame
    · rw [Table.get_insert] at hk hl
      split_ifs at hk hl
      · cases hk
        cases hx
      · cases hk
        cases hx
      · cases hl
        cases hy
      · exact h.alone hk hl hx hy
    · rw [Table.get_insert] at hk
      split_ifs at hk
      · cases hk
        cases hx
      · exact h.running hk hx
  | use key token consume =>
    cases hnext
    have hold {k : ℕ} {b : Authorization K R} (hb : ∃ view, b.phase.view = some view)
        (hk : (s.authorizations.insert ⟨key, token, consume, .waiting⟩).get k = some b) :
        s.authorizations.get k = some b := by
      rw [Table.get_insert] at hk
      split_ifs at hk
      · cases hk
        obtain ⟨view, hview⟩ := hb
        cases hview
      · exact hk
    exact ⟨h.distinct, h.alone, h.running, h.stored, h.bounded,
      fun hj hview => h.seen (hold ⟨_, hview⟩ hj) hview,
      fun hj hb => h.accepted (hold ⟨_, by rw [hb]; rfl⟩ hj) hb,
      fun hj hk hb hc => h.once (hold ⟨_, by rw [hb]; rfl⟩ hj) (hold ⟨_, by rw [hc]; rfl⟩ hk) hb hc⟩
  | issue i =>
    obtain ⟨issue, hi, ⟨progress, hturn, rfl⟩ | ⟨tx, hp, rfl⟩⟩ := issue_cases hnext
    · exact h.turn hi hturn
    · exact h.commit hi hp
  | authorize j =>
    obtain ⟨a, hj, t, phase, hused, rfl⟩ := authorize_cases hnext
    exact h.used hj hused
  | abandon i =>
    obtain ⟨issue, hi, hnext⟩ := Option.bind_eq_some_iff.mp hnext
    split at hnext
    next => cases hnext
    next hdone =>
      cases hnext
      exact h.turn hi (.failed hdone)
  | disconnect j =>
    obtain ⟨a, hj, hnext⟩ := Option.bind_eq_some_iff.mp hnext
    split at hnext
    next => cases hnext
    next =>
      cases hnext
      have hused : Used S hash now db s a s (.refused (.database .connectionLost)) := .refused
      exact h.used hj hused

theorem sound_empty : Sound S hash ⟨[], .empty, .empty⟩ where
  distinct hi := nomatch hi
  alone hi := nomatch hi
  running hi := nomatch hi
  stored _ hrow := absurd hrow List.not_mem_nil
  bounded _ := Nat.zero_le _
  seen hj := nomatch hj
  accepted hj := nomatch hj
  once hi := nomatch hi

/-- A view that a use has was taken in this step or before. -/
theorem view_of_next {m : StoreMove K R} (hnext : s.next S hash now db m = some s')
    (hj : s'.authorizations.get j = some a) {view : View R} (hview : a.phase.view = some view) :
    ((s.authorizations.get j).bind (·.phase.view) = some view) ∨ (view.now = now ∧ view.db = db) := by
  have hsame (hs : s'.authorizations = s.authorizations) : (s.authorizations.get j).bind (·.phase.view) = some view := by
    rw [← hs, hj]
    exact hview
  cases m with
  | begin userId resource token =>
    simp only [Store.next] at hnext
    split_ifs at hnext
    cases hnext
    exact .inl (hsame rfl)
  | use key token consume =>
    cases hnext
    rw [Table.get_insert] at hj
    split_ifs at hj
    · cases hj
      cases hview
    · exact .inl (by rw [hj]; exact hview)
  | issue i =>
    obtain ⟨issue, hi, ⟨progress, hturn, rfl⟩ | ⟨tx, hp, rfl⟩⟩ := issue_cases hnext
    · exact .inl (hsame rfl)
    · exact .inl (hsame rfl)
  | authorize k =>
    obtain ⟨b, hk, t, phase, hused, rfl⟩ := authorize_cases hnext
    have ht : t.authorizations = s.authorizations := by
      cases hused with
      | _ => rfl
    change (t.authorizations.put k _).get j = some a at hj
    rw [ht, Table.get_put] at hj
    split_ifs at hj with hjk
    · cases hj
      rw [hjk, hk]
      cases hused with
      | started =>
        cases hview
        exact .inr ⟨rfl, rfl⟩
      | consumed hp =>
        refine .inl ?_
        rw [Option.bind_some, hp]
        exact hview
      | asked hp =>
        refine .inl ?_
        rw [Option.bind_some, hp]
        exact hview
      | refused => cases hview
      | left => cases hview
    · exact .inl (by rw [hj]; exact hview)
  | abandon i =>
    obtain ⟨issue, hi, hnext⟩ := Option.bind_eq_some_iff.mp hnext
    split at hnext
    next => cases hnext
    next =>
      cases hnext
      exact .inl (hsame rfl)
  | disconnect k =>
    obtain ⟨b, hk, hnext⟩ := Option.bind_eq_some_iff.mp hnext
    split at hnext
    next => cases hnext
    next =>
      cases hnext
      change (s.authorizations.put k _).get j = some a at hj
      rw [Table.get_put] at hj
      split_ifs at hj
      · cases hj
        cases hview
      · exact .inl (by rw [hj]; exact hview)

theorem Sound.of_row (h : Sound S hash s) {row row' : Row R} (hrow : Issued hash s row) (hrow' : Issued hash s row')
    (hsame : row.tokenHash = row'.tokenHash) : row = row' := by
  obtain ⟨i, issue, started, hi, hdone, rfl⟩ := hrow
  obtain ⟨k, issue', started', hk, hdone', rfl⟩ := hrow'
  obtain rfl := h.distinct hi hk hsame
  cases hi.symm.trans hk
  cases hdone.symm.trans hdone'
  rfl

omit [DecidableEq R] in
theorem scope_eq_true {view : View R} {row : Row R} (h : a.scope S hash view row = true) :
    S.key row.resource = a.key ∧ (∃ token, a.token = some token ∧ hash token = row.tokenHash) ∧
      view.now < row.expiresAt ∧ S.available view.db row = true := by
  simp only [Authorization.scope, Bool.and_eq_true, decide_eq_true_eq, Option.any_eq_true] at h
  exact ⟨h.1.1.1, h.1.1.2, h.1.2, h.2⟩

end Sound

/-! ## Runs -/

/-- How often and for what a table lets tokens be used, and how many it keeps for a user. -/
structure OneShot (s : Store K R) : Prop where
  once : ∀ {i j a b view view' row row'}, s.authorizations.get i = some a → s.authorizations.get j = some b →
    a.phase = .accepted view row → b.phase = .accepted view' row' → a.consume = true → b.consume = true →
      a.token = b.token → i = j
  bounded : ∀ userId, s.rows.countP (·.userId = userId) ≤ S.own
  issued : ∀ {j a view row}, s.authorizations.get j = some a → a.phase = .accepted view row →
    ∃ i issue started, s.issues.get i = some issue ∧ issue.progress = .done started ∧ row = issue.row hash started ∧
      S.key issue.resource = a.key ∧
      ∀ k issue', s.issues.get k = some issue' → a.token = some issue'.token → k = i

/-- A use that had not been started in `s` and is accepted in `s'` is so for a moment in between at which the
token had not expired and what it is for was available to its user. -/
def Timely (table : State M → Store K R) (s s' : State M) : Prop :=
  ∀ {j a view row}, (table s').authorizations.get j = some a → a.phase = .accepted view row →
    ((table s).authorizations.get j).bind (·.phase.view) = none →
      ∃ t, Later hash s t ∧ Later hash t s' ∧ t.now < row.expiresAt ∧ S.available t.db row = true

section Runs

variable {S hash} {s s' : State M}

theorem Sound.oneShot {s : Store K R} (h : Sound S hash s) : OneShot S hash s where
  once hi hj ha hb hconsume hconsume' hsame := by
    obtain ⟨hview, hscope, -⟩ := h.accepted hi ha
    obtain ⟨hview', hscope', -⟩ := h.accepted hj hb
    obtain ⟨token, htoken, hhash⟩ := (scope_eq_true hscope).2.1
    obtain ⟨token', htoken', hhash'⟩ := (scope_eq_true hscope').2.1
    obtain rfl : token = token' := Option.some.inj (htoken.symm.trans (hsame.trans htoken'))
    have hissued := h.seen hi (by rw [ha]; rfl) _ hview
    have hissued' := h.seen hj (by rw [hb]; rfl) _ hview'
    obtain rfl := h.of_row hissued hissued' (hhash.symm.trans hhash')
    exact h.once hi hj ha hb hconsume hconsume'
  bounded := h.bounded
  issued hj ha := by
    obtain ⟨hview, hscope, -⟩ := h.accepted hj ha
    obtain ⟨hkey, ⟨token, htoken, hhash⟩, -⟩ := scope_eq_true hscope
    obtain ⟨i, issue, started, hi, hdone, rfl⟩ := h.seen hj (by rw [ha]; rfl) _ hview
    refine ⟨i, issue, started, hi, hdone, rfl, hkey, fun k issue' hk hsame => ?_⟩
    obtain rfl := Option.some.inj (htoken.symm.trans hsame)
    exact h.distinct hk hi hhash

theorem Reached.sound (h : Reached hash s) :
    Sound downloadCapabilities hash s.files ∧ Sound (archiveDownloads M) hash s.archives := by
  obtain ⟨s₀, hfresh, hlater⟩ := h
  induction hlater with
  | refl =>
    rw [hfresh.files, hfresh.archives]
    exact ⟨sound_empty, sound_empty⟩
  | tail _ hstep ih =>
    obtain ⟨m, hnext⟩ := hstep
    cases m with
    | tick n =>
      cases hnext
      exact ih
    | tables db =>
      cases hnext
      exact ⟨ih.1.keep _, ih.2.keep _⟩
    | file m =>
      obtain ⟨files, hfiles, rfl⟩ := Option.map_eq_some_iff.mp hnext
      exact ⟨ih.1.next hfiles, ih.2⟩
    | archive m =>
      obtain ⟨archives, harchives, rfl⟩ := Option.map_eq_some_iff.mp hnext
      exact ⟨ih.1, ih.2.next harchives⟩

variable (hash) in
/-- In every step of the system the view of a use was there before, or is taken of the system as it is. -/
def TakesViews (table : State M → Store K R) : Prop :=
  ∀ {s s' m j a view}, State.next hash s m = some s' → (table s').authorizations.get j = some a →
    a.phase.view = some view →
      ((table s).authorizations.get j).bind (·.phase.view) = some view ∨ (view.now = s.now ∧ view.db = s.db)

theorem takesViews_files : TakesViews (M := M) hash State.files := by
  intro s s' m j a view hnext hj hview
  have hsame (hs : s'.files.authorizations = s.files.authorizations) :
      (s.files.authorizations.get j).bind (·.phase.view) = some view := by
    rw [← hs, hj]
    exact hview
  cases m with
  | tick n =>
    cases hnext
    exact .inl (hsame rfl)
  | tables db =>
    cases hnext
    exact .inl (hsame rfl)
  | file m =>
    obtain ⟨files, hfiles, rfl⟩ := Option.map_eq_some_iff.mp hnext
    exact view_of_next hfiles hj hview
  | archive m =>
    obtain ⟨archives, harchives, rfl⟩ := Option.map_eq_some_iff.mp hnext
    exact .inl (hsame rfl)

theorem takesViews_archives : TakesViews (M := M) hash State.archives := by
  intro s s' m j a view hnext hj hview
  have hsame (hs : s'.archives.authorizations = s.archives.authorizations) :
      (s.archives.authorizations.get j).bind (·.phase.view) = some view := by
    rw [← hs, hj]
    exact hview
  cases m with
  | tick n =>
    cases hnext
    exact .inl (hsame rfl)
  | tables db =>
    cases hnext
    exact .inl (hsame rfl)
  | file m =>
    obtain ⟨files, hfiles, rfl⟩ := Option.map_eq_some_iff.mp hnext
    exact .inl (hsame rfl)
  | archive m =>
    obtain ⟨archives, harchives, rfl⟩ := Option.map_eq_some_iff.mp hnext
    exact view_of_next harchives hj hview

omit [DecidableEq K] [DecidableEq R] in
/-- **A view was there at the start of a run, or was taken on the way.** -/
theorem TakesViews.since {table : State M → Store K R} (ht : TakesViews hash table) (h : Later hash s s') {j : ℕ}
    {a : Authorization K R} {view : View R} (hj : (table s').authorizations.get j = some a)
    (hview : a.phase.view = some view) :
    ((table s).authorizations.get j).bind (·.phase.view) = some view ∨
      ∃ t, Later hash s t ∧ Later hash t s' ∧ view.now = t.now ∧ view.db = t.db := by
  induction h generalizing a with
  | refl =>
    rw [hj]
    exact .inl hview
  | @tail s₁ s₂ hlater hstep ih =>
    obtain ⟨m, hnext⟩ := hstep
    rcases ht hnext hj hview with hbefore | ⟨hnow, hdb⟩
    · obtain ⟨b, hb, hbview⟩ := Option.bind_eq_some_iff.mp hbefore
      rcases ih hb hbview with hstart | ⟨t, hst, hts, hsame⟩
      · exact .inl hstart
      · exact .inr ⟨t, hst, hts.tail ⟨m, hnext⟩, hsame⟩
    · exact .inr ⟨s₁, hlater, .single ⟨m, hnext⟩, hnow, hdb⟩

theorem TakesViews.timely {table : State M → Store K R} (ht : TakesViews hash table) (h : Later hash s s')
    (hsound : Sound S hash (table s')) : Timely S hash table s s' := by
  intro j a view row hj ha hnew
  obtain ⟨-, hscope, -⟩ := hsound.accepted hj ha
  obtain ⟨-, -, hnow, havailable⟩ := scope_eq_true hscope
  have hview : a.phase.view = some view := by rw [ha]; rfl
  rcases ht.since h hj hview with hstart | ⟨t, hst, hts, htime, hdb⟩
  · rw [hnew] at hstart
    cases hstart
  · exact ⟨t, hst, hts, htime ▸ hnow, hdb ▸ havailable⟩

theorem Reached.later (h : Reached hash s) (hlater : Later hash s s') : Reached hash s' := by
  obtain ⟨s₀, hfresh, hs⟩ := h
  exact ⟨s₀, hfresh, hs.trans hlater⟩

end Runs

/-- **Tokens are used once, for what they were issued for**, and a user never has more than eight of files and two
of archives. A use that comes after a moment is accepted only for a later moment at which the token has not
expired, its user is active, and its file is there and not in the trash. -/
theorem capabilities_one_shot {s s' : State M} (hs : Reached hash s) (hlater : Later hash s s') :
    OneShot downloadCapabilities hash s'.files ∧ OneShot (archiveDownloads M) hash s'.archives ∧
      Timely downloadCapabilities hash State.files s s' ∧ Timely (archiveDownloads M) hash State.archives s s' := by
  obtain ⟨hfiles, harchives⟩ := (hs.later hlater).sound
  exact ⟨hfiles.oneShot, harchives.oneShot, takesViews_files.timely hlater hfiles,
    takesViews_archives.timely hlater harchives⟩

/-- The state after the moves. -/
def State.after (s : State M) : List (Move M) → Option (State M)
  | [] => some s
  | m :: moves => (s.next hash m).bind (after · moves)

theorem later_of_after {moves : List (Move M)} {s s' : State M}
    (h : s.after hash moves = some s') : Later hash s s' := by
  induction moves generalizing s with
  | nil =>
    cases h
    exact .refl
  | cons m moves ih =>
    obtain ⟨t, ht, hrest⟩ := Option.bind_eq_some_iff.mp h
    exact .head ⟨m, ht⟩ (ih hrest)

def Phase.isAccepted : Phase R → Bool
  | .accepted _ _ => true
  | _ => false

/-- A user with a file, before anything is asked of the services. -/
def oneFile : State Unit where
  now := 0
  db := { Db.empty (Table.empty.insert ⟨0, 0, true, 0, 0⟩) with
    files := Table.empty.insert ⟨.ofJs [97], none, 0, none, none, false, false, none, none, none, none, 1⟩ }
  files := ⟨[], .empty, .empty⟩
  archives := ⟨[], .empty, .empty⟩

def someToken : JsString := List.replicate 64 0x61

def someArchive : Archive Unit := ⟨List.replicate 32 0x62, ()⟩

/-- A token for a file and one for an archive are issued; that for the file is used, and used again. -/
def someMoves : List (Move Unit) :=
  .file (.begin 1 1 someToken) :: List.replicate 7 (.file (.issue 1)) ++
    .archive (.begin 1 someArchive someToken) :: List.replicate 6 (.archive (.issue 1)) ++
    [.file (.use 1 (some someToken) true), .file (.authorize 1), .file (.authorize 1),
      .archive (.use someArchive.id (some someToken) true), .archive (.authorize 1), .archive (.authorize 1),
      .file (.use 1 (some someToken) true), .file (.authorize 2), .file (.authorize 2)]

theorem capabilities_one_shot_of_run : ∃ s : State Unit,
    (s.files.authorizations.get 1).any (·.phase.isAccepted) = true ∧
    (s.archives.authorizations.get 1).any (·.phase.isAccepted) = true ∧
    (s.files.authorizations.get 2).any (·.phase.isAccepted) = false ∧
    OneShot downloadCapabilities id s.files ∧ OneShot (archiveDownloads Unit) id s.archives ∧
    Timely downloadCapabilities id State.files oneFile s ∧ Timely (archiveDownloads Unit) id State.archives oneFile s := by
  have hrun : (oneFile.after id someMoves).any (fun s => (s.files.authorizations.get 1).any (·.phase.isAccepted) &&
      (s.archives.authorizations.get 1).any (·.phase.isAccepted) &&
      !(s.files.authorizations.get 2).any (·.phase.isAccepted)) = true := by decide +kernel
  obtain ⟨s, hs, hp⟩ := (Option.any_eq_true ..).mp hrun
  rw [Bool.and_eq_true, Bool.and_eq_true, Bool.not_eq_true'] at hp
  exact ⟨s, hp.1.1, hp.1.2, hp.2, capabilities_one_shot id ⟨oneFile, ⟨rfl, rfl⟩, .refl⟩ (later_of_after id hs)⟩

end Capabilities

end HomeCloud
