import HomeCloud.Client.QueueJobs

/-!
# What the network and the server do keeps what holds

* `WorldOk.set`: a session changes; `WorldOk.respond`: a request is answered; `WorldOk.create`: a session
  is made.
* **`serve_ok`**: the server grants a request.
-/

namespace HomeCloud

namespace Queue

open ChunkSizes

variable {Hash : Type} {page : Page Hash} {w : World Hash} {k u : ℕ} {e : Exchange Hash}
  {session session' : ServerSession Hash}

/-- What may change in the world, when no session is asked for. -/
structure World.Changes (page : Page Hash) (w w' : World Hash) : Prop where
  later : w.Later w'
  ok : WorldOk page w'
  creation : ∀ id k, w'.Creation id k → w.Creation id k

theorem World.Later.trans {w₁ w₂ w₃ : World Hash} (h : w₁.Later w₂) (h' : w₂.Later w₃) : w₁.Later w₃ := by
  refine ⟨fun k e he => ?_, fun u session hs => ?_, h.now.trans h'.now⟩
  · obtain ⟨e', he', hjob, hrequest, htime, hkeeps⟩ := h.exchange k e he
    obtain ⟨e'', he'', hjob', hrequest', htime', hkeeps'⟩ := h'.exchange k e' he'
    exact ⟨e'', he'', hjob'.trans hjob, hrequest'.trans hrequest, htime'.trans htime,
      fun r hr => hkeeps' r (hkeeps r hr)⟩
  · obtain ⟨session', hs', hl⟩ := h.session u session hs
    obtain ⟨session'', hs'', hl'⟩ := h'.session u session' hs'
    refine ⟨session'', hs'', hl'.creator.trans hl.creator, hl'.key.trans hl.key, hl'.body.trans hl.body,
      fun ha => hl'.aborted (hl.aborted ha), fun hc => ?_, fun i bytes hchunk => ?_⟩
    · have hsame := hl.completed hc
      rw [hl'.completed (by rw [hsame, hc]), hsame]
    · rcases hl.chunk i bytes hchunk with ha | hchunk'
      · exact .inl (hl'.aborted ha)
      · exact hl'.chunk i bytes hchunk'

theorem World.Changes.trans {w' w'' : World Hash} (h : w.Changes page w') (h' : w'.Changes page w'') :
    w.Changes page w'' :=
  ⟨h.later.trans h'.later, h'.ok, fun id k hk => h.creation id k (h'.creation id k hk)⟩

/-- Time goes on. -/
theorem WorldOk.tick (h : WorldOk page w) (n : ℕ) : w.Changes page { w with now := w.now + n } := by
  have hlater : w.Later { w with now := w.now + n } :=
    ⟨fun _ e he => ⟨e, he, rfl, rfl, rfl, fun _ hr => hr⟩, fun _ session hs => ⟨session, hs, .refl session⟩,
      Nat.le_add_right _ _⟩
  exact ⟨hlater, { h with truthful := fun k e r he hr => (h.truthful k e r he hr).mono hlater },
    fun _ _ hk => hk⟩

/-- A request is sent by nobody's job. -/
theorem WorldOk.other (h : WorldOk page w) (request : Request Hash) :
    w.Changes page { w with exchanges := w.exchanges ++ [⟨none, request, w.now, none⟩] } := by
  refine ⟨.exchanges w _, h.exchanges fun e he => ?_, ?_⟩
  · rw [List.mem_singleton.mp he]
  · rintro id k ⟨key, body, e, he, hjob, hrequest⟩
    refine ⟨key, body, e, ?_, hjob, hrequest⟩
    change (w.exchanges ++ [_])[k]? = some e at he
    rw [List.getElem?_append] at he
    split_ifs at he with hlt
    · exact he
    · rw [List.mem_singleton.mp (List.mem_of_getElem? he)] at hjob
      cases hjob

/-! ## Sessions -/

/-- **A session changes.** -/
theorem WorldOk.set (h : WorldOk page w) (hs : w.server[u]? = some session)
    (hl : session.Later session')
    (hindex : ∀ i bytes, session'.chunk i = some bytes → i < session'.totalChunks)
    (hcomplete : session'.status = .completed →
      ∃ (k : ℕ) (e : Exchange Hash), w.exchanges[k]? = some e ∧ e.request = .complete u)
    (hnodup : (session'.chunks.map (·.1)).Nodup) :
    w.Changes page { w with server := w.server.set u session' } := by
  have hlt := (List.getElem?_eq_some_iff.mp hs).1
  -- A session is the changed one, or as before.
  have hget : ∀ (u' : ℕ) s', (w.server.set u session')[u']? = some s' →
      u' = u ∧ s' = session' ∨ u' ≠ u ∧ w.server[u']? = some s' := by
    intro u' s' hs'
    rw [List.getElem?_set] at hs'
    split_ifs at hs' with heq
    · subst heq
      exact .inl ⟨rfl, (Option.some.inj hs').symm⟩
    · exact .inr ⟨fun hc => heq hc.symm, hs'⟩
  have hset : (w.server.set u session')[u]? = some session' := by
    rw [List.getElem?_set_self hlt]
  have hlater : w.Later { w with server := w.server.set u session' } := by
    refine ⟨fun _ e he => ⟨e, he, rfl, rfl, rfl, fun _ hr => hr⟩, fun u' s hs' => ?_, le_rfl⟩
    by_cases heq : u' = u
    · subst heq
      cases hs.symm.trans hs'
      exact ⟨session', hset, hl⟩
    · refine ⟨s, ?_, .refl s⟩
      change (w.server.set u session')[u']? = some s
      rw [List.getElem?_set_ne (fun hc => heq hc.symm), hs']
  refine ⟨hlater, ⟨fun k e r he hr => (h.truthful k e r he hr).mono hlater, fun u' s' hs' => ?_,
    fun u₁ u₂ s₁ s₂ hs₁ hs₂ hsome hkey => ?_, fun u' s' i bytes hs' hchunk => ?_, fun u' hu' => ?_,
    fun u' s' hs' => ?_⟩, fun _ _ hk => hk⟩
  · rcases hget u' s' hs' with ⟨rfl, rfl⟩ | ⟨-, hold⟩
    · obtain ⟨e, r, he, hrequest, hr, hu⟩ := h.creator u' session hs
      rw [hl.creator, hl.key, hl.body]
      exact ⟨e, r, he, hrequest, hr, hu⟩
    · exact h.creator u' s' hold
  · have hkeys : ∀ (u' : ℕ) s', (w.server.set u session')[u']? = some s' →
        ∃ s, w.server[u']? = some s ∧ s'.key = s.key := by
      intro u' s' hs'
      rcases hget u' s' hs' with ⟨rfl, rfl⟩ | ⟨-, hold⟩
      · exact ⟨session, hs, hl.key⟩
      · exact ⟨s', hold, rfl⟩
    obtain ⟨t₁, ht₁, hkey₁⟩ := hkeys u₁ s₁ hs₁
    obtain ⟨t₂, ht₂, hkey₂⟩ := hkeys u₂ s₂ hs₂
    exact h.key u₁ u₂ t₁ t₂ ht₁ ht₂ (hkey₁ ▸ hsome) (by rw [← hkey₁, ← hkey₂, hkey])
  · rcases hget u' s' hs' with ⟨rfl, rfl⟩ | ⟨-, hold⟩
    · exact hindex i bytes hchunk
    · exact h.index u' s' i bytes hold hchunk
  · obtain ⟨s', hs', hstatus⟩ := hu'
    rcases hget u' s' hs' with ⟨rfl, rfl⟩ | ⟨-, hold⟩
    · exact hcomplete hstatus
    · exact h.complete u' ⟨s', hold, hstatus⟩
  · rcases hget u' s' hs' with ⟨rfl, rfl⟩ | ⟨-, hold⟩
    · exact hnodup
    · exact h.nodup u' s' hold

/-! ## Answers -/

/-- A request that is answered stays what it was. -/
theorem World.getElem?_respond {r : Response Hash} {k' : ℕ} {e' : Exchange Hash}
    (he' : (w.exchanges.set k { e with response := some r })[k']? = some e') :
    k' = k ∧ e' = { e with response := some r } ∨ k' ≠ k ∧ w.exchanges[k']? = some e' := by
  rw [List.getElem?_set] at he'
  split_ifs at he' with heq hlt
  · exact .inl ⟨heq.symm, (Option.some.inj he').symm⟩
  · exact .inr ⟨fun hc => heq hc.symm, he'⟩

theorem World.Later.respond {r : Response Hash} {server : List (ServerSession Hash)}
    (he : w.exchanges[k]? = some e) (hnone : e.response = none)
    (hserver : ∀ (u : ℕ) session, w.server[u]? = some session →
      ∃ session', server[u]? = some session' ∧ session.Later session') :
    w.Later { w with server, exchanges := w.exchanges.set k { e with response := some r } } := by
  have hlt := (List.getElem?_eq_some_iff.mp he).1
  refine ⟨fun k' e' he' => ?_, hserver, le_rfl⟩
  by_cases heq : k' = k
  · subst heq
    cases he.symm.trans he'
    refine ⟨_, List.getElem?_set_self hlt, rfl, rfl, rfl, fun r' hr' => ?_⟩
    rw [hnone] at hr'
    cases hr'
  · refine ⟨e', ?_, rfl, rfl, rfl, fun _ hr => hr⟩
    change (w.exchanges.set k _)[k']? = some e'
    rw [List.getElem?_set_ne (fun hc => heq hc.symm), he']

/-- An answer is no request for a session. -/
theorem World.Creation.of_respond {r : Response Hash} {server : List (ServerSession Hash)} {id : JobId}
    {k' : ℕ} (he : w.exchanges[k]? = some e)
    (h : ({ w with server, exchanges := w.exchanges.set k { e with response := some r } } :
      World Hash).Creation id k') : w.Creation id k' := by
  obtain ⟨key, body, e', he', hjob, hrequest⟩ := h
  rcases World.getElem?_respond he' with ⟨rfl, rfl⟩ | ⟨-, hold⟩
  · exact ⟨key, body, e, he, hjob, hrequest⟩
  · exact ⟨key, body, e', hold, hjob, hrequest⟩

/-- **A request is answered.** -/
theorem WorldOk.respond {r : Response Hash} (h : WorldOk page w) (he : w.exchanges[k]? = some e)
    (hnone : e.response = none) (htrue : Truthful page w k e.request r) :
    w.Changes page { w with exchanges := w.exchanges.set k { e with response := some r } } := by
  have hlater := World.Later.respond (r := r) he hnone fun _ session hs => ⟨session, hs, .refl session⟩
  have hlt := (List.getElem?_eq_some_iff.mp he).1
  refine ⟨hlater, { h with
    truthful := fun k' e' r' he' hr' => ?_
    creator := fun u session hs => ?_
    complete := fun u hu => ?_ }, fun _ _ hk => hk.of_respond he⟩
  · rcases World.getElem?_respond he' with ⟨rfl, rfl⟩ | ⟨-, hold⟩
    · cases hr'
      exact htrue.mono hlater
    · exact (h.truthful k' e' r' hold hr').mono hlater
  · obtain ⟨e', r', he', hrequest, hr', hu⟩ := h.creator u session hs
    have hne : session.creator ≠ k := fun heq => by
      rw [heq] at he'
      cases he.symm.trans he'
      rw [hnone] at hr'
      cases hr'
    exact ⟨e', r', (List.getElem?_set_ne hne.symm).trans he', hrequest, hr', hu⟩
  · obtain ⟨k', e', he', hrequest⟩ := h.complete u hu
    by_cases heq : k' = k
    · subst heq
      cases he.symm.trans he'
      exact ⟨k', _, List.getElem?_set_self hlt, hrequest⟩
    · exact ⟨k', e', (List.getElem?_set_ne (fun hc => heq hc.symm)).trans he', hrequest⟩

/-- **A session is made**, and its request answered, with an error perhaps when there is a transport. -/
theorem WorldOk.create {r : Response Hash} {key : Option ℕ} {body : NewSession Hash} (h : WorldOk page w)
    (he : w.exchanges[k]? = some e) (hnone : e.response = none) (hrequest : e.request = .create key body)
    (hfresh : ∀ (u : ℕ) session, w.server[u]? = some session → key.isSome → session.key ≠ key)
    (hr : r = .created w.server.length ∨ page.transport = true ∧ ∃ refusal, r = .refused refusal) :
    w.Changes page { w with
      server := w.server ++ [⟨k, key, body, [], .live⟩]
      exchanges := w.exchanges.set k { e with response := some r } } := by
  have hlt := (List.getElem?_eq_some_iff.mp he).1
  have hlast : (w.server ++ [⟨k, key, body, [], .live⟩])[w.server.length]? =
      some ⟨k, key, body, [], .live⟩ := List.getElem?_concat_length
  -- A session is the new one, or one from before.
  have hget : ∀ (u : ℕ) session, (w.server ++ [⟨k, key, body, [], .live⟩])[u]? = some session →
      u = w.server.length ∧ session = ⟨k, key, body, [], .live⟩ ∨ w.server[u]? = some session := by
    intro u session hs
    rw [List.getElem?_append] at hs
    split_ifs at hs with hu
    · exact .inr hs
    · obtain ⟨hu', hs⟩ := List.getElem?_eq_some_iff.mp hs
      rw [List.length_singleton] at hu'
      exact .inl ⟨by omega, by simpa using hs.symm⟩
  have hold : ∀ (u : ℕ) session, w.server[u]? = some session →
      (w.server ++ [⟨k, key, body, [], .live⟩])[u]? = some session := fun u session hs =>
    (List.getElem?_append_left (List.getElem?_eq_some_iff.mp hs).1).trans hs
  have hlater : w.Later { w with
      server := w.server ++ [⟨k, key, body, [], .live⟩]
      exchanges := w.exchanges.set k { e with response := some r } } :=
    .respond he hnone fun u session hs => ⟨session, hold u session hs, .refl session⟩
  refine ⟨hlater, ⟨fun k' e' r' he' hr' => ?_, fun u session hs => ?_,
    fun u u' session session' hs hs' hsome hkey => ?_, fun u session i bytes hs hchunk => ?_,
    fun u hu => ?_, fun u session hs => ?_⟩, fun _ _ hk => hk.of_respond he⟩
  · rcases World.getElem?_respond he' with ⟨rfl, rfl⟩ | ⟨-, hbefore⟩
    · cases hr'
      rcases hr with rfl | ⟨-, refusal, rfl⟩
      · dsimp only
        rw [hrequest]
        exact ⟨_, hlast, rfl, rfl, fun _ => rfl⟩
      · exact trivial
    · exact (h.truthful k' e' r' hbefore hr').mono hlater
  · rcases hget u session hs with ⟨rfl, rfl⟩ | hs
    · refine ⟨_, r, List.getElem?_set_self hlt, hrequest, rfl, fun ho => ?_⟩
      rcases hr with rfl | ⟨ht, -⟩
      · rfl
      · rw [ho] at ht
        cases ht
    · obtain ⟨e', r', he', hrequest', hr', hu⟩ := h.creator u session hs
      have hne : session.creator ≠ k := fun heq => by
        rw [heq] at he'
        cases he.symm.trans he'
        rw [hnone] at hr'
        cases hr'
      exact ⟨e', r', (List.getElem?_set_ne hne.symm).trans he', hrequest', hr', hu⟩
  · rcases hget u session hs with ⟨rfl, rfl⟩ | hs <;> rcases hget u' session' hs' with ⟨rfl, rfl⟩ | hs'
    · rfl
    · exact absurd hkey (hfresh u' session' hs' hsome)
    · have hkey' : key = session.key := hkey
      exact absurd hkey'.symm (hfresh u session hs (hkey' ▸ hsome))
    · exact h.key u u' session session' hs hs' hsome hkey
  · rcases hget u session hs with ⟨rfl, rfl⟩ | hs
    · cases hchunk
    · exact h.index u session i bytes hs hchunk
  · obtain ⟨session, hs, hstatus⟩ := hu
    rcases hget u session hs with ⟨rfl, rfl⟩ | hs
    · cases hstatus
    · obtain ⟨k', e', he', hrequest'⟩ := h.complete u ⟨session, hs, hstatus⟩
      by_cases heq : k' = k
      · subst heq
        cases he.symm.trans he'
        rw [hrequest] at hrequest'
        cases hrequest'
      · exact ⟨k', e', (List.getElem?_set_ne (fun hc => heq hc.symm)).trans he', hrequest'⟩
  · rcases hget u session hs with ⟨rfl, rfl⟩ | hs
    · exact List.nodup_nil
    · exact h.nodup u session hs

/-! ## Requests -/

/-- The chunk of a session with one more. -/
theorem ServerSession.chunk_append {i : ℕ} {bytes : List UInt8} (hnew : session.chunk i = none)
    (j : ℕ) : ({ session with chunks := session.chunks ++ [(i, bytes)] } : ServerSession Hash).chunk j =
      if j = i then some bytes else session.chunk j := by
  unfold ServerSession.chunk at hnew ⊢
  dsimp only
  rw [List.find?_append]
  by_cases hj : j = i
  · subst hj
    rw [Option.map_eq_none_iff.mp hnew, if_pos rfl]
    simp
  · rw [if_neg hj]
    cases session.chunks.find? (·.1 = j) with
    | some chunk => rfl
    | none => simp [Ne.symm hj]

/-- A chunk of a session is found. -/
theorem WorldOk.find (h : WorldOk page w) (hs : w.server[u]? = some session) {chunk : ℕ × List UInt8}
    (hchunk : chunk ∈ session.chunks) : session.chunk chunk.1 = some chunk.2 := by
  have hnodup := h.nodup u session hs
  unfold ServerSession.chunk
  generalize session.chunks = chunks at hchunk hnodup
  induction chunks with
  | nil => cases hchunk
  | cons first rest ih =>
    rw [List.map_cons, List.nodup_cons] at hnodup
    rcases List.mem_cons.mp hchunk with rfl | hrest
    · rw [List.find?_cons_of_pos (by simp)]
      rfl
    · have hne : first.1 ≠ chunk.1 := fun heq =>
        hnodup.1 (heq ▸ List.mem_map.mpr ⟨chunk, hrest, rfl⟩)
      rw [List.find?_cons_of_neg (by simpa using hne)]
      exact ih hrest hnodup.2

/-- What the server tells about a session is true. -/
theorem WorldOk.detail (h : WorldOk page w) (hs : w.server[u]? = some session) :
    (session.detail page.digest u).uploadId = u ∧ DetailOk page w (session.detail page.digest u) := by
  unfold ServerSession.detail
  split
  · rename_i hlive
    refine ⟨rfl, ⟨session, hs, rfl, rfl⟩, fun hc => ?_, fun chunk hchunk => ?_⟩
    · unfold ServerSession.metadata at hc
      rw [hlive] at hc
      dsimp only at hc
      split_ifs at hc
    · obtain ⟨stored, hstored, rfl⟩ := List.mem_map.mp hchunk
      exact ⟨stored.2, ⟨session, hs, .inr (h.find hs hstored)⟩, rfl⟩
  · rename_i hcompleted
    exact ⟨rfl, ⟨session, hs, rfl, rfl⟩, fun _ => ⟨session, hs, hcompleted⟩, nofun⟩
  · rename_i haborted
    refine ⟨rfl, ⟨session, hs, rfl, rfl⟩, fun hc => ?_, nofun⟩
    unfold ServerSession.metadata at hc
    rw [haborted] at hc
    cases hc

/-- A session changes, and the request that changes it is answered. -/
theorem WorldOk.set_respond {r : Response Hash} (h : WorldOk page w) (he : w.exchanges[k]? = some e)
    (hnone : e.response = none) (hs : w.server[u]? = some session) (hl : session.Later session')
    (hindex : ∀ i bytes, session'.chunk i = some bytes → i < session'.totalChunks)
    (hcomplete : session'.status = .completed → e.request = .complete u)
    (hnodup : (session'.chunks.map (·.1)).Nodup)
    (htrue : Truthful page { w with server := w.server.set u session' } k e.request r) :
    w.Changes page { w with
      server := w.server.set u session'
      exchanges := w.exchanges.set k { e with response := some r } } := by
  have hset := h.set hs hl hindex (fun hc => ⟨k, e, he, hcomplete hc⟩) hnodup
  exact hset.trans (hset.ok.respond he hnone htrue)

/-- **The server grants a request**; with a transport, it may say that it has not. -/
theorem serve_ok [DecidableEq Hash] {server : List (ServerSession Hash)} {r r' : Response Hash}
    (h : WorldOk page w) (he : w.exchanges[k]? = some e) (hnone : e.response = none)
    (hserve : serve page.digest w.server k e.request = some (server, r))
    (hr : r' = r ∨ page.transport = true ∧ e.request.isCreate = true ∧ ∃ refusal, r' = .refused refusal) :
    w.Changes page { w with
      server, exchanges := w.exchanges.set k { e with response := some r' } } := by
  -- A request that is not one for a session gets its own answer.
  have hsame : e.request.isCreate = false → r' = r := fun hc => by
    rcases hr with rfl | ⟨-, hcreate, -⟩
    · rfl
    · rw [hc] at hcreate
      cases hcreate
  obtain ⟨request, hrequest⟩ : ∃ request, e.request = request := ⟨_, rfl⟩
  rw [hrequest] at hserve
  cases request with
  | create key body =>
    dsimp only [serve] at hserve
    split at hserve
    · rename_i hfind
      cases hserve
      refine h.create he hnone hrequest (fun u session hs hsome hkey => ?_) ?_
      · have hnot := List.findIdx?_eq_none_iff.mp hfind session (List.mem_of_getElem? hs)
        rw [hkey, hsome] at hnot
        simp at hnot
      · rcases hr with rfl | ⟨ht, -, hrefusal⟩
        · exact .inl rfl
        · exact .inr ⟨ht, hrefusal⟩
    · rename_i u hfind
      split at hserve
      · rename_i session hs
        split_ifs at hserve with hbody
        cases hserve
        refine h.respond he hnone ?_
        rcases hr with rfl | ⟨-, -, refusal, rfl⟩
        · obtain ⟨hlt, hfound, -⟩ := List.findIdx?_eq_some_iff_getElem.mp hfind
          have hget : w.server[u] = session := (List.getElem?_eq_some_iff.mp hs).2
          rw [hget] at hfound
          simp only [Bool.and_eq_true, decide_eq_true_eq] at hfound
          rw [hrequest]
          refine ⟨session, hs, hfound.2, hbody, fun hk => ?_⟩
          rw [hk] at hfound
          cases hfound.1
        · exact trivial
      · cases hserve
  | detail u =>
    obtain rfl := hsame (by rw [hrequest]; rfl)
    obtain ⟨session, hs, heq⟩ := Option.map_eq_some_iff.mp hserve
    cases heq
    refine h.respond he hnone ?_
    rw [hrequest]
    exact h.detail hs
  | chunk u i bytes =>
    obtain rfl := hsame (by rw [hrequest]; rfl)
    dsimp only [serve] at hserve
    split at hserve
    · cases hserve
    · rename_i session hs
      split_ifs at hserve with hlive
      rw [Bool.and_eq_true, decide_eq_true_eq] at hlive
      split at hserve
      · rename_i hchunk
        cases hserve
        have hlt := (List.getElem?_eq_some_iff.mp hs).1
        have hi : i < session.totalChunks := by
          have haccepts := hlive.2
          simp only [uploadChunkAccepts, Bool.and_eq_true, Bool.not_eq_true', decide_eq_false_iff_not] at haccepts
          omega
        refine h.set_respond he hnone hs ⟨rfl, rfl, rfl, ?_, ?_, fun j stored hstored => .inr ?_⟩
          (fun j stored hstored => ?_) ?_ ?_ ?_
        · exact fun ha => ha
        · intro hc
          rw [hlive.1] at hc
          cases hc
        · rw [ServerSession.chunk_append hchunk, if_neg, hstored]
          rintro rfl
          rw [hchunk] at hstored
          cases hstored
        · rw [ServerSession.chunk_append hchunk] at hstored
          split_ifs at hstored with hj
          · exact hj ▸ hi
          · exact h.index u session j stored hs hstored
        · intro hc
          have hlive' : session.status = .completed := hc
          rw [hlive.1] at hlive'
          cases hlive'
        · rw [List.map_append, List.map_singleton]
          refine (h.nodup u session hs).append (List.nodup_singleton i) fun j hj hji => ?_
          obtain ⟨chunk, hmem, rfl⟩ := List.mem_map.mp hj
          have hfound := h.find hs hmem
          rw [List.mem_singleton.mp hji, hchunk] at hfound
          cases hfound
        · rw [hrequest]
          refine ⟨_, List.getElem?_set_self hlt, .inr ?_⟩
          rw [ServerSession.chunk_append hchunk, if_pos rfl]
      · rename_i stored hstored
        split_ifs at hserve with hbytes
        cases hserve
        refine h.respond he hnone ?_
        rw [hrequest]
        exact ⟨session, hs, .inr (hbytes ▸ hstored)⟩
  | complete u =>
    obtain rfl := hsame (by rw [hrequest]; rfl)
    dsimp only [serve] at hserve
    split at hserve
    · cases hserve
    · rename_i session hs
      split at hserve
      · cases hserve
      · rename_i hcompleted
        cases hserve
        refine h.respond he hnone ?_
        rw [hrequest]
        exact ⟨session, hs, hcompleted⟩
      · rename_i hlive
        split_ifs at hserve
        cases hserve
        refine h.set_respond he hnone hs ⟨rfl, rfl, rfl, ?_, ?_, fun j stored hstored => .inr hstored⟩
          (fun j stored hstored => h.index u session j stored hs hstored) (fun _ => hrequest)
          (h.nodup u session hs) ?_
        · intro ha
          rw [hlive] at ha
          cases ha
        · intro hc
          rw [hlive] at hc
          cases hc
        · rw [hrequest]
          exact ⟨_, List.getElem?_set_self (List.getElem?_eq_some_iff.mp hs).1, rfl⟩
  | remove u =>
    obtain rfl := hsame (by rw [hrequest]; rfl)
    dsimp only [serve] at hserve
    split at hserve
    · cases hserve
    · rename_i session hs
      split_ifs at hserve with hcompleted
      cases hserve
      refine h.set_respond he hnone hs ⟨rfl, rfl, rfl, fun _ => rfl, fun hc => (hcompleted hc).elim,
        fun _ _ _ => .inl rfl⟩ (fun j stored hj => by cases hj) (fun hc => by cases hc) List.nodup_nil ?_
      rw [hrequest]
      exact ⟨_, List.getElem?_set_self (List.getElem?_eq_some_iff.mp hs).1, rfl⟩
  | limits =>
    cases hserve
  | sessions =>
    cases hserve

/-- A session expires. -/
theorem WorldOk.expire (h : WorldOk page w) (hs : w.server[u]? = some session)
    (hlive : session.status = .live) :
    w.Changes page { w with
      server := w.server.set u { session with status := .aborted, chunks := [] } } :=
  h.set hs ⟨rfl, rfl, rfl, fun _ => rfl, fun hc => absurd (hlive.symm.trans hc) nofun,
    fun _ _ _ => .inl rfl⟩ nofun nofun List.nodup_nil

end Queue

end HomeCloud
