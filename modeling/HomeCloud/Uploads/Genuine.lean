import HomeCloud.System

/-!
# Published bytes are uploaded bytes

The object of a published upload has the chunks of its session in order, each as it was received.

* `World.Genuine`: the object of a file is that of its upload; `ObjectsGenuine`: for all files.
* `ObjectsGenuine.onDisk`, `ObjectsGenuine.commit`: one step.
* **`published_bytes`**: every run.
-/

namespace HomeCloud

open Concurrent Sha256

/-! ## Objects -/

/-- The file `r` has an object, which has the bytes of the chunks of the session `q` in order, each the
body of a request for it, and the content that its chunk row records if there is one. -/
def World.Genuine (w : World) (id : ℕ) (q : UploadSession) (r : File) : Prop :=
  ∃ a data, r.placement = some (finalPlacement id (some a)) ∧
    w.disk.objects (finalPlacement id (some a)) = some data ∧
    q.Assembles id w.disk.received data ∧ data.length = q.totalSize ∧
    q.expectedSha256.all (· = sha256 data) = true

/-- The file `r` is that of the upload `id`, whose session has been `q` when it was committed. -/
structure OfUpload (w : World) (id : ℕ) (q : UploadSession) (r : File) : Prop where
  bound : id < w.db.uploadSessions.bound
  same : ∀ q', w.db.uploadSessions.get id = some q' → q.SameUpload q'
  genuine : q.workspaceId = .legacy → w.Genuine id q r

/-- The objects of the published files that have not been deleted are those of their uploads. -/
def ObjectsGenuine (w : World) : Prop :=
  ∀ i r id, w.seen i = some r → r.uploadId = some id → w.erased i = false → ∃ q, OfUpload w id q r

section

variable {t : ℕ} {w w' : World} {id : ℕ} {q : UploadSession} {r : File} {tx : Tx} {op : DiskOp}

/-- The chunks of a session make up the file. -/
theorem UploadSession.Assembles.length {received : List (ℕ × ℕ × Bytes)} {data : Bytes}
    (h : q.Assembles id received data) (hl : q.LaidOut) : data.length = q.totalSize := by
  obtain ⟨parts, rfl, hlen, hparts⟩ := h
  have hmap : parts.map List.length = (List.range q.totalChunks).map q.chunkLength := by
    refine List.ext_getElem (by simp [hlen]) fun i hi _ => ?_
    rw [List.getElem_map, List.getElem_map, List.getElem_range]
    rw [List.length_map] at hi
    exact (hparts i _ (List.getElem?_eq_getElem hi)).2.1
  have hrange : (List.range q.totalChunks).toFinset = Finset.range q.totalChunks := by
    ext i
    simp
  rw [List.length_flatten, hmap, ← List.sum_toFinset _ List.nodup_range, hrange]
  exact sum_chunkLength hl

theorem UploadSession.Assembles.received {received received' : List (ℕ × ℕ × Bytes)} {data : Bytes}
    (h : q.Assembles id received data) (hr : ∀ x ∈ received, x ∈ received') :
    q.Assembles id received' data := by
  obtain ⟨parts, hdata, hlen, hparts⟩ := h
  refine ⟨parts, hdata, hlen, fun i part hp => ?_⟩
  obtain ⟨hin, hrest⟩ := hparts i part hp
  exact ⟨hr _ hin, hrest⟩

/-- The object of a file that has not been deleted stays. -/
theorem World.Genuine.of_objects (h : w.Genuine id q r)
    (hr : ∀ x ∈ w.disk.received, x ∈ w'.disk.received)
    (ho : ∀ a, r.placement = some (finalPlacement id (some a)) →
      w.disk.objects (finalPlacement id (some a)) ≠ none →
      w'.disk.objects (finalPlacement id (some a)) = w.disk.objects (finalPlacement id (some a))) :
    w'.Genuine id q r := by
  obtain ⟨a, data, hp, hobject, hassembles, hrest⟩ := h
  refine ⟨a, data, hp, ?_, hassembles.received hr, hrest⟩
  rw [ho a hp (by rw [hobject]; nofun), hobject]

/-- **A step on the files leaves the objects of files as they are.** -/
theorem ObjectsGenuine.onDisk (h : ObjectsGenuine w) (hp : op.Pre t w) :
    ObjectsGenuine (w.onDisk op t) := by
  intro i r id hr hup herased
  obtain ⟨q, hq⟩ := h i r id hr hup herased
  refine ⟨q, hq.bound, hq.same, fun hlegacy => ?_⟩
  refine (hq.genuine hlegacy).of_objects (fun x hx => op.mem_received hx) fun a hplace hsome => ?_
  change (op.apply t w.disk).objects _ = _
  by_cases hc : op.changesObject id (some a)
  · rcases hc with ⟨n, hn, rfl⟩ | rfl
    · -- A link does not replace an object.
      cases hn
      simp only [DiskOp.apply]
      obtain ⟨data, hdata⟩ := Option.ne_none_iff_exists'.mp hsome
      rw [hdata]
      split
      · rename_i hnone
        cases hnone
      · exact hdata
    · cases (hp.2 i r hr hplace).symm.trans herased
  · exact op.objects_eq hc

/-- The commit of the file of a legacy upload finds its object in order. -/
theorem Committing.genuine (hc : Committing t w tx) {i : ℕ} (hn : w.seen i = none)
    (hr : (w.write tx t).seen i = some r) (hup : r.uploadId = some id) :
    ∃ q, w.db.uploadSessions.get id = some q ∧
      (q.workspaceId = .legacy → ((w.write tx t).release t).Genuine id q r) := by
  have hfile : (tx.apply w.db).files.get i = some r := by
    simpa only [World.write, hn, Option.or_none] using hr
  have hfresh := hc.fresh_row hfile hn
  have hpublished : tx.published = some id := hfresh.upload.symm.trans hup
  have hok := hc.ok
  cases tx with
  | uploads tx =>
    cases tx with
    | publish id' session file c =>
      cases hpublished
      obtain ⟨old, attempt, ho⟩ := hok
      have hrow : (w.db.files.insert file).get i = some r := hfile
      rw [hfresh.new, Table.get_insert_bound] at hrow
      cases hrow
      obtain ⟨data, hobject, hassembles, hsha⟩ := ho.object
      exact ⟨old, ho.row, fun _ => ⟨attempt, data, ho.placement, hobject, hassembles,
        hassembles.length (hc.inv.sessions id old ho.row).laidOut, hsha⟩⟩
    | _ => cases hpublished
  | journal tx =>
    cases tx with
    | commit opId sessionId file c =>
      cases hpublished
      obtain ⟨-, op, q, ho⟩ := hok
      refine ⟨q, ho.row, fun hlegacy => ?_⟩
      cases ho.workspace.symm.trans hlegacy
    | _ => cases hpublished
  | _ => cases hpublished

/-- **A commit keeps objects genuine.** -/
theorem ObjectsGenuine.commit (h : ObjectsGenuine w) (hc : Committing t w tx) :
    ObjectsGenuine ((w.write tx t).release t) := by
  have hsame : ∀ {s : ℕ} {q₀ : UploadSession}, s < w.db.uploadSessions.bound →
      (∀ q', w.db.uploadSessions.get s = some q' → q₀.SameUpload q') →
      ∀ q', (tx.apply w.db).uploadSessions.get s = some q' → q₀.SameUpload q' := by
    intro s q₀ hs hq₀ q' hq'
    obtain ⟨q, hq, hsame⟩ := hc.respects.grows.sessions.old s q' hs hq'
    exact (hq₀ q hq).trans hsame
  have hbound : w.db.uploadSessions.bound ≤ (tx.apply w.db).uploadSessions.bound :=
    hc.sessions.bound
  intro i r id hr hup herased
  have hkept : w.erased i = false := (Bool.or_eq_false_iff.mp herased).1
  cases hn : w.seen i with
  | none =>
    obtain ⟨q, hq, hgenuine⟩ := hc.genuine hn hr hup
    have hb := Table.lt_bound hq
    refine ⟨q, lt_of_lt_of_le hb hbound, hsame hb fun q' hq' => ?_, hgenuine⟩
    cases hq.symm.trans hq'
    exact .refl q
  | some r₀ =>
    rcases hc.seen_row hr with ⟨r₁, hr₁, hobj⟩ | hfresh
    · cases hn.symm.trans hr₁
      obtain ⟨q, hq⟩ := h i r₀ id hn (hobj.uploadId.symm.trans hup) hkept
      refine ⟨q, lt_of_lt_of_le hq.bound hbound, hsame hq.bound hq.same, fun hlegacy => ?_⟩
      obtain ⟨a, data, hp, hrest⟩ := hq.genuine hlegacy
      exact ⟨a, data, hobj.placement.trans hp, hrest⟩
    · exact absurd hn (hfresh.new ▸ hc.inv.not_seen)

end

/-! ## Runs -/

/-- **Published bytes are the uploaded bytes**: in every state of every run, the object of a published
legacy upload that has not been deleted has the chunks of its session in order, each the body of a
request for that chunk and what the row of the chunk records if there is one, of the size of the
session and with the digest it expects; the session is as it was when the file was committed. -/
theorem published_bytes (s : Settings) (users : Table User) (c : Config World Instr Err Unit)
    (hc : Reachable s anyStep users c) :
    (∀ i r id, c.state.seen i = some r → r.uploadId = some id → c.state.erased i = false →
      ∃ q, OfUpload c.state id q r) ∧
    ∀ m c', c.next (system s) m = some c' → ∀ i r id q, c.state.seen i = none →
      c'.state.seen i = some r → r.uploadId = some id → c.state.db.uploadSessions.get id = some q →
      q.workspaceId = .legacy → c'.state.Genuine id q r := by
  refine ⟨?_, fun m c' hn i r id q hnone hr hup hq hlegacy => ?_⟩
  · refine hc.world_invariant (P := ObjectsGenuine) (fun i r id hr => nomatch hr)
      fun w w' hi hchange h => ?_
    cases hchange with
    | calm hcalm =>
      obtain ⟨f, hdisk⟩ := hcalm.disk
      intro i r id hr hup herased
      rw [hcalm.seen] at hr
      rw [hcalm.erased] at herased
      obtain ⟨q, hq⟩ := h i r id hr hup herased
      refine ⟨q, hcalm.db ▸ hq.bound, hcalm.db ▸ hq.same, fun hlegacy => ?_⟩
      refine (hq.genuine hlegacy).of_objects (fun x hx => ?_) fun a _ _ => ?_
      · rw [hdisk]
        exact hx
      · rw [hdisk]
    | disk hp _ => exact h.onDisk hp
    | commit hcommit => exact h.commit hcommit.toCommitting
  · have heffect := Reach.effect (verified s) inv_initial hc (meets_anyStep c m) hn
    have hno : c'.state.seen ≠ c.state.seen := fun heq => by
      rw [heq, hnone] at hr
      cases hr
    have hchange := Effect.change hc.inv heffect
    generalize c'.state = w' at hchange hr hno ⊢
    cases hchange with
    | calm hcalm => exact absurd hcalm.seen hno
    | disk => exact absurd rfl hno
    | commit hcommit =>
      obtain ⟨q', hq', hgenuine⟩ := hcommit.genuine hnone hr hup
      cases hq.symm.trans hq'
      exact hgenuine hlegacy

theorem published_byte :
    ∃ c c' r q, Reachable plainSettings anyStep oneUser c ∧
      c.next (system plainSettings) (.run 3 0) = some c' ∧ c'.state.seen 1 = some r ∧
      c'.state.disk.objects (finalPlacement 1 (some 0)) = some [7] ∧
      (∃ q, OfUpload c'.state 1 q r) ∧ c'.state.Genuine 1 q r := by
  obtain ⟨c, hc, hp⟩ := exists_reachable plainSettings oneUser unchecked_ok upToCommit
    (fun c => (c.next (system plainSettings) (.run 3 0)).any fun c' =>
      c.state.seen 1 = none && (c'.state.seen 1).any (·.uploadId = some 1) &&
        !c'.state.erased 1 && c'.state.disk.objects (finalPlacement 1 (some 0)) = some [7] &&
        (c.state.db.uploadSessions.get 1).any (·.workspaceId = .legacy)) (by decide +kernel)
  obtain ⟨c', hn, hp⟩ := (Option.any_eq_true ..).mp hp
  simp only [Bool.and_eq_true, decide_eq_true_eq, Bool.not_eq_true'] at hp
  obtain ⟨⟨⟨⟨hnone, hup⟩, herased⟩, hobject⟩, hlegacy⟩ := hp
  obtain ⟨r, hr, hup⟩ := (Option.any_eq_true ..).mp hup
  obtain ⟨q, hq, hlegacy⟩ := (Option.any_eq_true ..).mp hlegacy
  have hc' : Reachable plainSettings anyStep oneUser c' := .step _ hc (meets_anyStep _ _) hn
  have h := published_bytes plainSettings oneUser
  exact ⟨c, c', r, q, hc, hn, hr, hobject,
    (h c' hc').1 1 r 1 hr (of_decide_eq_true hup) herased,
    (h c hc).2 _ c' hn 1 r 1 q hnone hr (of_decide_eq_true hup) hq (of_decide_eq_true hlegacy)⟩

end HomeCloud
