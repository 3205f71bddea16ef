import HomeCloud.Storage.DiskNames
import Mathlib.Data.List.Sort

/-!
# The tree of an upload

The folders and files that are to be made for a list of chosen entries.

* `TreeEntry`, `Tree`, `manifest`: the entries, the maps that are filled from them, and the sorted tree.
* `Visit`, `visits`: what an entry adds to the tree, a node for each of its folders and one for itself.
* `put`, `build`: a map in the order of its keys, where the last value of a key counts.
* **`manifest_eq_ok`**: which entries are accepted, and the tree of theirs.
-/

namespace HomeCloud

namespace Manifest

open Storage

/-! ## The tree -/

inductive Kind where
  | folder
  | file
  deriving DecidableEq

structure TreeEntry (F : Type) where
  path : JsString
  kind : Kind
  file : Option F
  deriving DecidableEq

def MAX_ENTRIES : ℕ := 1000

inductive Refusal where
  | absolute
  | badName
  | tooDeep
  | duplicate
  | ambiguousParents
  | fileAsFolder
  | tooMany
  deriving DecidableEq

def split (path : JsString) : List JsString := path.splitOn 0x2F

def join (parts : List JsString) : JsString := [0x2F].intercalate parts

def isSlash (c : UInt16) : Bool := c = 0x2F || c = 0x5C

def isLetter (c : UInt16) : Bool := (0x41 ≤ c && c ≤ 0x5A) || (0x61 ≤ c && c ≤ 0x7A)

/-- `!path || /^[\\/]|^[a-z]:/i.test(path)`. -/
def absolute (path : JsString) : Bool :=
  path.isEmpty || path.head?.any isSlash || (path.head?.any isLetter && path[1]? = some 0x3A)

/-- A control character, at the place of a code point or in it. -/
def isControl (c : UInt16) : Bool := c < 32 || (127 ≤ c && c ≤ 159)

def validName (name : JsString) : Bool :=
  !(name.isEmpty || name = [0x2E] || name = [0x2E, 0x2E] || name.length > 255 || name.any isSlash || name.any isControl)

variable {F : Type} (nfc : JsString → JsString)

def normalizePart (part : JsString) : Except Refusal JsString :=
  let name := trim (nfc part)
  if validName name then .ok name else .error .badName

/-- The maps of a call: `nodes` in the order of its keys. -/
structure Tree (F : Type) where
  nodes : List (TreeEntry F)
  origins : JsString → Option JsString
  explicit : List JsString

def Tree.empty : Tree F := ⟨[], fun _ => none, []⟩

/-- `nodes.set(node.path, node)`. -/
def put (nodes : List (TreeEntry F)) (node : TreeEntry F) : List (TreeEntry F) :=
  if node.path ∈ nodes.map (·.path) then nodes.map fun x => if x.path = node.path then node else x else nodes ++ [node]

/-- A node that an entry adds, with the path as it was written. -/
structure Visit (F : Type) where
  raw : JsString
  node : TreeEntry F

/-- One round of the inner loop. -/
def visit (tree : Tree F) (v : Visit F) : Except Refusal (Tree F) :=
  let key := v.node.path
  if (tree.origins key).any (· ≠ v.raw) then .error .ambiguousParents
  else if (tree.nodes.find? (·.path = key)).any (fun prior => prior.kind ≠ .folder || v.node.kind ≠ .folder) then
    .error .fileAsFolder
  else
    let nodes := put tree.nodes v.node
    if nodes.length > MAX_ENTRIES then .error .tooMany
    else .ok { tree with nodes, origins := Function.update tree.origins key (some v.raw) }

/-- What an entry with the parts of its path adds. -/
def visits (entry : TreeEntry F) (parts : List JsString) : List (Visit F) :=
  (List.range parts.length).map fun i =>
    ⟨join ((split entry.path).take (i + 1)),
      if i + 1 = parts.length then { entry with path := join parts } else ⟨join (parts.take (i + 1)), .folder, none⟩⟩

/-- One round of the outer loop. -/
def add (tree : Tree F) (entry : TreeEntry F) : Except Refusal (Tree F) :=
  if absolute entry.path then .error .absolute
  else do
    let parts ← (split entry.path).mapM (normalizePart nfc)
    let path := join parts
    if parts.length > 32 || byteLength path > 4096 then .error .tooDeep
    else if path ∈ tree.explicit then .error .duplicate
    else (visits entry parts).foldlM visit { tree with explicit := path :: tree.explicit }

def depth (entry : TreeEntry F) : ℕ := (split entry.path).length

def sorted (nodes : List (TreeEntry F)) : List (TreeEntry F) := nodes.insertionSort fun a b => depth a ≤ depth b

def manifest (entries : List (TreeEntry F)) : Except Refusal (List (TreeEntry F)) := do
  let tree ← entries.foldlM (add nfc) .empty
  return sorted tree.nodes

/-! ## A map in the order of its keys -/

section

variable {nodes : List (TreeEntry F)} {node x : TreeEntry F}

theorem mem_put : x ∈ put nodes node ↔ x = node ∨ (x ∈ nodes ∧ x.path ≠ node.path) := by
  unfold put
  split_ifs with h
  · rw [List.mem_map]
    constructor
    · rintro ⟨y, hy, rfl⟩
      split_ifs with hpath
      · exact .inl rfl
      · exact .inr ⟨hy, hpath⟩
    · rintro (rfl | ⟨hx, hpath⟩)
      · obtain ⟨y, hy, hpath⟩ := List.mem_map.mp h
        exact ⟨y, hy, if_pos hpath⟩
      · exact ⟨x, hx, if_neg hpath⟩
  · rw [List.mem_append, List.mem_singleton]
    constructor
    · rintro (hx | rfl)
      · exact .inr ⟨hx, fun hpath => h (hpath ▸ List.mem_map_of_mem hx)⟩
      · exact .inl rfl
    · rintro (rfl | ⟨hx, -⟩)
      · exact .inr rfl
      · exact .inl hx

theorem paths_put : (put nodes node).map (·.path) =
    if node.path ∈ nodes.map (·.path) then nodes.map (·.path) else nodes.map (·.path) ++ [node.path] := by
  unfold put
  split_ifs with h
  · rw [List.map_map]
    refine List.map_congr_left fun x _ => ?_
    rw [Function.comp_apply]
    split_ifs with hpath
    · exact hpath.symm
    · rfl
  · rw [List.map_append, List.map_singleton]

theorem nodup_put (h : (nodes.map (·.path)).Nodup) : ((put nodes node).map (·.path)).Nodup := by
  rw [paths_put]
  split_ifs with hmem
  · exact h
  · exact h.append (List.nodup_singleton _) (by simpa using hmem)

/-- A node that is there already changes nothing. -/
theorem put_of_mem (h : (nodes.map (·.path)).Nodup) (hnode : node ∈ nodes) : put nodes node = nodes := by
  unfold put
  rw [if_pos (List.mem_map_of_mem hnode)]
  refine (List.map_congr_left fun x hx => ?_).trans nodes.map_id
  split_ifs with hpath
  · exact (List.inj_on_of_nodup_map h hx hnode hpath).symm
  · rfl

/-- The nodes after some visits. -/
def build (vs : List (Visit F)) : List (TreeEntry F) := vs.foldl (fun nodes v => put nodes v.node) []

variable {vs : List (Visit F)} {v : Visit F}

theorem build_append : build (vs ++ [v]) = put (build vs) v.node := List.foldl_append

theorem nodup_build : ((build vs).map (·.path)).Nodup := by
  induction vs using List.reverseRecOn with
  | nil => exact List.nodup_nil
  | append_singleton vs v ih =>
    rw [build_append]
    exact nodup_put ih

/-- The last visit of a key counts. -/
theorem mem_build : x ∈ build vs ↔ ∃ pre v post, vs = pre ++ v :: post ∧ v.node = x ∧ ∀ v' ∈ post, v'.node.path ≠ x.path := by
  induction vs using List.reverseRecOn with
  | nil =>
    refine iff_of_false List.not_mem_nil ?_
    rintro ⟨pre, v, post, h, -⟩
    exact List.append_ne_nil_of_right_ne_nil pre (List.cons_ne_nil v post) h.symm
  | append_singleton vs w ih =>
    rw [build_append, mem_put, ih]
    constructor
    · rintro (rfl | ⟨⟨pre, v, post, rfl, hv, hpost⟩, hpath⟩)
      · exact ⟨vs, w, [], rfl, rfl, fun _ h => absurd h List.not_mem_nil⟩
      · refine ⟨pre, v, post ++ [w], by simp, hv, fun v' hv' => ?_⟩
        rcases List.mem_append.mp hv' with hold | hnew
        · exact hpost v' hold
        · rw [List.mem_singleton.mp hnew]
          exact hpath.symm
    · rintro ⟨pre, v, post, h, hv, hpost⟩
      rcases List.eq_nil_or_concat post with rfl | ⟨post, w', rfl⟩
      · obtain ⟨-, hw⟩ := List.append_inj' h rfl
        exact .inl (by rw [← hv, (List.cons.inj hw).1])
      · have hsplit : vs ++ [w] = (pre ++ v :: post) ++ [w'] := by simpa using h
        obtain ⟨hvs, hw⟩ := List.append_inj' hsplit rfl
        obtain ⟨rfl, -⟩ := List.cons.inj hw
        refine .inr ⟨⟨pre, v, post, hvs, hv, fun v' hv' => hpost v' ?_⟩, (hpost w ?_).symm⟩
        · rw [List.concat_eq_append]
          exact List.mem_append_left _ hv'
        · rw [List.concat_eq_append]
          exact List.mem_append_right _ (List.mem_singleton_self w)

theorem exists_of_mem_build (h : x ∈ build vs) : ∃ v ∈ vs, v.node = x := by
  obtain ⟨pre, v, post, rfl, hv, -⟩ := mem_build.mp h
  exact ⟨v, List.mem_append_right _ List.mem_cons_self, hv⟩

theorem mem_paths_build {p : JsString} : p ∈ (build vs).map (·.path) ↔ p ∈ vs.map (·.node.path) := by
  induction vs using List.reverseRecOn with
  | nil => exact Iff.rfl
  | append_singleton vs v ih =>
    rw [build_append, paths_put, List.map_append, List.mem_append, List.map_singleton, List.mem_singleton, ← ih]
    split_ifs with hmem
    · exact ⟨.inl, fun h => h.elim id fun h => h ▸ hmem⟩
    · rw [List.mem_append, List.mem_singleton]

theorem length_build : (build vs).length = (vs.map (·.node.path)).toFinset.card := by
  rw [← List.length_map (f := fun x : TreeEntry F => x.path), ← List.toFinset_card_of_nodup nodup_build]
  refine congrArg Finset.card (Finset.ext fun p => ?_)
  rw [List.mem_toFinset, List.mem_toFinset, mem_paths_build]

/-! ## Which visits are accepted -/

/-- `origins` after some visits. -/
def originsOf (vs : List (Visit F)) : JsString → Option JsString :=
  vs.foldl (fun origins v => Function.update origins v.node.path (some v.raw)) fun _ => none

def treeOf (explicit : List JsString) (vs : List (Visit F)) : Tree F := ⟨build vs, originsOf vs, explicit⟩

/-- **What visits are to be**: those of one key are written alike, a file has its key alone, and there are not too many
keys. -/
structure Valid (vs : List (Visit F)) : Prop where
  agree : ∀ v ∈ vs, ∀ v' ∈ vs, v.node.path = v'.node.path → v.raw = v'.raw
  apart : vs.Pairwise fun v v' => v.node.path = v'.node.path → v.node.kind = .folder ∧ v'.node.kind = .folder
  few : (vs.map (·.node.path)).toFinset.card ≤ MAX_ENTRIES

variable {vs' : List (Visit F)} {explicit : List JsString} {tree : Tree F} {entry : TreeEntry F}

theorem valid_nil : Valid ([] : List (Visit F)) := ⟨fun _ h => absurd h List.not_mem_nil, .nil, Nat.zero_le _⟩

theorem Valid.of_append (h : Valid (vs ++ vs')) : Valid vs where
  agree v hv v' hv' := h.agree v (List.mem_append_left _ hv) v' (List.mem_append_left _ hv')
  apart := (List.pairwise_append.mp h.apart).1
  few := by
    refine le_trans (Finset.card_le_card fun p hp => ?_) h.few
    rw [List.mem_toFinset] at hp ⊢
    rw [List.map_append]
    exact List.mem_append_left _ hp

theorem Valid.perm (h : Valid vs) (hperm : vs.Perm vs') : Valid vs' where
  agree v hv v' hv' := h.agree v (hperm.mem_iff.mpr hv) v' (hperm.mem_iff.mpr hv')
  apart := (hperm.pairwise_iff fun h heq => (h heq.symm).symm).mp h.apart
  few := by
    rw [← List.toFinset_eq_of_perm _ _ (hperm.map _)]
    exact h.few

/-- Visits of one key are of one kind. -/
theorem Valid.kind_eq {v' : Visit F} (h : Valid vs) (hv : v ∈ vs) (hv' : v' ∈ vs) (heq : v.node.path = v'.node.path) :
    v.node.kind = v'.node.kind := by
  have hkinds : vs.Pairwise fun v v' => v.node.path = v'.node.path → v.node.kind = v'.node.kind :=
    h.apart.imp fun hboth heq => (hboth heq).1.trans (hboth heq).2.symm
  exact hkinds.forall_of_forall_of_flip (fun _ _ _ => rfl)
    (hkinds.imp fun hk heq => (hk heq.symm).symm) hv hv' heq

theorem originsOf_append : originsOf (vs ++ [v]) = Function.update (originsOf vs) v.node.path (some v.raw) :=
  List.foldl_append

/-- The origin of a key is that of one of its visits. -/
theorem originsOf_cases (vs : List (Visit F)) (key : JsString) :
    (originsOf vs key = none ∧ ∀ v ∈ vs, v.node.path ≠ key) ∨ ∃ v ∈ vs, v.node.path = key ∧ originsOf vs key = some v.raw := by
  induction vs using List.reverseRecOn with
  | nil => exact .inl ⟨rfl, fun _ h => absurd h List.not_mem_nil⟩
  | append_singleton vs v ih =>
    rw [originsOf_append, Function.update_apply]
    split_ifs with hkey
    · exact .inr ⟨v, List.mem_append_right _ (List.mem_singleton_self v), hkey.symm, rfl⟩
    · rcases ih with ⟨hnone, hall⟩ | ⟨v', hv', hpath, hsome⟩
      · refine .inl ⟨hnone, fun v' hv' => ?_⟩
        rcases List.mem_append.mp hv' with hold | hnew
        · exact hall v' hold
        · rw [List.mem_singleton.mp hnew]
          exact Ne.symm hkey
      · exact .inr ⟨v', List.mem_append_left _ hv', hpath, hsome⟩

/-- The first check. -/
theorem origins_any (h : Valid vs) : (originsOf vs v.node.path).any (· ≠ v.raw) = false ↔
    ∀ v' ∈ vs, v'.node.path = v.node.path → v'.raw = v.raw := by
  rcases originsOf_cases vs v.node.path with ⟨hnone, hall⟩ | ⟨w, hw, hpath, hsome⟩
  · rw [hnone]
    exact iff_of_true rfl fun v' hv' heq => absurd heq (hall v' hv')
  · rw [hsome, Option.any_some, decide_eq_false_iff_not, not_not]
    constructor
    · intro hraw v' hv' heq
      exact (h.agree v' hv' w hw (heq.trans hpath.symm)).trans hraw
    · intro hall
      exact hall w hw hpath

/-- The second check. -/
theorem prior_any (h : Valid vs) : ((build vs).find? (·.path = v.node.path)).any
    (fun prior => prior.kind ≠ .folder || v.node.kind ≠ .folder) = false ↔
      ∀ v' ∈ vs, v'.node.path = v.node.path → v'.node.kind = .folder ∧ v.node.kind = .folder := by
  cases hfind : (build vs).find? (·.path = v.node.path) with
  | none =>
    refine iff_of_true rfl fun v' hv' heq => ?_
    have hmem : v.node.path ∈ (build vs).map (·.path) := mem_paths_build.mpr (heq ▸ List.mem_map_of_mem hv')
    obtain ⟨x, hx, hpath⟩ := List.mem_map.mp hmem
    exact absurd (decide_eq_true hpath) (List.find?_eq_none.mp hfind x hx)
  | some prior =>
    obtain ⟨w, hw, rfl⟩ := exists_of_mem_build (List.mem_of_find?_eq_some hfind)
    have hfound := List.find?_some hfind
    have hpath : w.node.path = v.node.path := of_decide_eq_true hfound
    rw [Option.any_some, Bool.or_eq_false_iff, decide_eq_false_iff_not, decide_eq_false_iff_not, not_not, not_not]
    constructor
    · rintro ⟨hprior, hnode⟩ v' hv' heq
      exact ⟨(h.kind_eq hv' hw (heq.trans hpath.symm)).trans hprior, hnode⟩
    · intro hall
      exact hall w hw hpath

/-- **One round of the inner loop.** -/
theorem visit_eq_ok (h : Valid vs) : visit (treeOf explicit vs) v = .ok tree ↔
    Valid (vs ++ [v]) ∧ tree = treeOf explicit (vs ++ [v]) := by
  have hlength : (put (build vs) v.node).length = ((vs ++ [v]).map (·.node.path)).toFinset.card := by
    rw [← build_append, length_build]
  unfold visit treeOf
  dsimp only
  rw [build_append, originsOf_append]
  constructor
  · intro hok
    split_ifs at hok with horigin hprior hmany
    have hagree := (origins_any h).mp (Bool.eq_false_iff.mpr horigin)
    have hapart := (prior_any h).mp (Bool.eq_false_iff.mpr hprior)
    refine ⟨⟨fun w hw w' hw' heq => ?_, ?_, ?_⟩, (Except.ok.inj hok).symm⟩
    · rcases List.mem_append.mp hw with hw | hw <;> rcases List.mem_append.mp hw' with hw' | hw'
      · exact h.agree w hw w' hw' heq
      · rw [List.mem_singleton.mp hw'] at heq ⊢
        exact hagree w hw heq
      · rw [List.mem_singleton.mp hw] at heq ⊢
        exact (hagree w' hw' heq.symm).symm
      · rw [List.mem_singleton.mp hw, List.mem_singleton.mp hw']
    · rw [List.pairwise_append]
      refine ⟨h.apart, List.pairwise_singleton _ _, fun w hw w' hw' heq => ?_⟩
      rw [List.mem_singleton.mp hw'] at heq ⊢
      exact hapart w hw heq
    · rw [← hlength]
      exact not_lt.mp hmany
  · rintro ⟨hvalid, rfl⟩
    have hlast : v ∈ vs ++ [v] := List.mem_append_right _ (List.mem_singleton_self v)
    have horigin := (origins_any h).mpr fun w hw heq => hvalid.agree w (List.mem_append_left _ hw) v hlast heq
    have hprior := (prior_any h).mpr fun w hw heq =>
      (List.pairwise_append.mp hvalid.apart).2.2 w hw v (List.mem_singleton_self v) heq
    rw [if_neg (Bool.eq_false_iff.mp horigin), if_neg (Bool.eq_false_iff.mp hprior), if_neg]
    rw [hlength]
    exact not_lt.mpr hvalid.few

theorem foldlM_visit (h : Valid vs) : vs'.foldlM visit (treeOf explicit vs) = .ok tree ↔
    Valid (vs ++ vs') ∧ tree = treeOf explicit (vs ++ vs') := by
  induction vs' generalizing vs with
  | nil =>
    rw [List.append_nil]
    exact ⟨fun hok => ⟨h, (Except.ok.inj hok).symm⟩, fun hok => congrArg Except.ok hok.2.symm⟩
  | cons v vs' ih =>
    have hassoc : vs ++ v :: vs' = vs ++ [v] ++ vs' := by simp
    rw [List.foldlM_cons, hassoc]
    constructor
    · intro hok
      cases hvisit : visit (treeOf explicit vs) v with
      | error e =>
        rw [hvisit] at hok
        cases hok
      | ok next =>
        rw [hvisit] at hok
        obtain ⟨hvalid, rfl⟩ := (visit_eq_ok h).mp hvisit
        exact (ih hvalid).mp hok
    · rintro ⟨hvalid, rfl⟩
      rw [(visit_eq_ok h).mpr ⟨hvalid.of_append, rfl⟩]
      exact (ih hvalid.of_append).mpr ⟨hvalid, rfl⟩

/-! ## Which entries are accepted -/

/-- The names of the path of an entry. -/
def names (entry : TreeEntry F) : List JsString := (split entry.path).map fun part => trim (nfc part)

structure Parses (entry : TreeEntry F) : Prop where
  relative : absolute entry.path = false
  valid : ∀ name ∈ names nfc entry, validName name = true
  depth : (names nfc entry).length ≤ 32
  bytes : byteLength (join (names nfc entry)) ≤ 4096

def allVisits (entries : List (TreeEntry F)) : List (Visit F) := entries.flatMap fun entry => visits entry (names nfc entry)

/-- **What entries are to be.** -/
structure Accepts (entries : List (TreeEntry F)) : Prop where
  parses : ∀ entry ∈ entries, Parses nfc entry
  distinct : (entries.map fun entry => join (names nfc entry)).Nodup
  valid : Valid (allVisits nfc entries)

variable {nfc}

theorem normalizePart_eq_ok {part name : JsString} : normalizePart nfc part = .ok name ↔
    validName (trim (nfc part)) = true ∧ name = trim (nfc part) := by
  unfold normalizePart
  dsimp only
  split_ifs with hvalid
  · exact ⟨fun h => ⟨hvalid, (Except.ok.inj h).symm⟩, fun h => congrArg Except.ok h.2.symm⟩
  · exact ⟨nofun, fun h => absurd h.1 hvalid⟩

theorem mapM_normalizePart {parts names : List JsString} : parts.mapM (normalizePart nfc) = .ok names ↔
    (∀ part ∈ parts, validName (trim (nfc part)) = true) ∧ names = parts.map fun part => trim (nfc part) := by
  induction parts generalizing names with
  | nil => exact ⟨fun h => ⟨fun _ h => absurd h List.not_mem_nil, (Except.ok.inj h).symm⟩, fun h => congrArg Except.ok h.2.symm⟩
  | cons part parts ih =>
    rw [List.mapM_cons, List.map_cons, List.forall_mem_cons]
    constructor
    · intro h
      cases hpart : normalizePart nfc part with
      | error e =>
        rw [hpart] at h
        cases h
      | ok name =>
        cases hrest : parts.mapM (normalizePart nfc) with
        | error e =>
          rw [hpart, hrest] at h
          cases h
        | ok rest =>
          rw [hpart, hrest] at h
          obtain ⟨hvalid, rfl⟩ := normalizePart_eq_ok.mp hpart
          obtain ⟨hall, rfl⟩ := ih.mp hrest
          exact ⟨⟨hvalid, hall⟩, (Except.ok.inj h).symm⟩
    · rintro ⟨⟨hvalid, hall⟩, rfl⟩
      rw [normalizePart_eq_ok.mpr ⟨hvalid, rfl⟩, ih.mpr ⟨hall, rfl⟩]
      rfl

/-- **One round of the outer loop.** -/
theorem add_eq_ok (h : Valid vs) : add nfc (treeOf explicit vs) entry = .ok tree ↔
    Parses nfc entry ∧ join (names nfc entry) ∉ explicit ∧ Valid (vs ++ visits entry (names nfc entry)) ∧
      tree = treeOf (join (names nfc entry) :: explicit) (vs ++ visits entry (names nfc entry)) := by
  unfold add
  constructor
  · intro hok
    split_ifs at hok with habsolute
    cases hparts : (split entry.path).mapM (normalizePart nfc) with
    | error e =>
      rw [hparts] at hok
      cases hok
    | ok parts =>
      rw [hparts] at hok
      obtain ⟨hvalid, rfl⟩ := mapM_normalizePart.mp hparts
      change (if _ then _ else _) = _ at hok
      split_ifs at hok with hdeep hdup
      simp only [Bool.or_eq_true, decide_eq_true_eq, not_or, not_lt, gt_iff_lt] at hdeep
      refine ⟨⟨Bool.eq_false_iff.mpr habsolute, ?_, hdeep.1, hdeep.2⟩, hdup, (foldlM_visit h).mp hok⟩
      intro name hname
      obtain ⟨part, hpart, rfl⟩ := List.mem_map.mp hname
      exact hvalid part hpart
  · rintro ⟨hparses, hnew, hvalid, rfl⟩
    have hparts : (split entry.path).mapM (normalizePart nfc) = .ok (names nfc entry) :=
      mapM_normalizePart.mpr ⟨fun part hpart => hparses.valid _ (List.mem_map_of_mem hpart), rfl⟩
    have hdeep : ¬(decide ((names nfc entry).length > 32) || decide (byteLength (join (names nfc entry)) > 4096)) = true := by
      simp only [Bool.or_eq_true, decide_eq_true_eq, not_or, not_lt, gt_iff_lt]
      exact ⟨hparses.depth, hparses.bytes⟩
    rw [if_neg (Bool.eq_false_iff.mp hparses.relative), hparts]
    change (if _ then _ else _) = _
    rw [if_neg hdeep]
    refine (if_neg hnew).trans ?_
    exact (foldlM_visit h).mpr ⟨hvalid, rfl⟩

theorem foldlM_add {entries : List (TreeEntry F)} (h : Valid vs) : entries.foldlM (add nfc) (treeOf explicit vs) = .ok tree ↔
    (∀ entry ∈ entries, Parses nfc entry) ∧ (entries.map fun entry => join (names nfc entry)).Nodup ∧
      (∀ entry ∈ entries, join (names nfc entry) ∉ explicit) ∧ Valid (vs ++ allVisits nfc entries) ∧
      tree = treeOf ((entries.map fun entry => join (names nfc entry)).reverse ++ explicit) (vs ++ allVisits nfc entries) := by
  induction entries generalizing vs explicit with
  | nil =>
    unfold allVisits
    rw [List.flatMap_nil, List.append_nil]
    exact ⟨fun hok => ⟨fun _ h => absurd h List.not_mem_nil, List.nodup_nil, fun _ h => absurd h List.not_mem_nil, h,
      (Except.ok.inj hok).symm⟩, fun hok => congrArg Except.ok hok.2.2.2.2.symm⟩
  | cons entry entries ih =>
    have hassoc : vs ++ allVisits nfc (entry :: entries) =
        vs ++ visits entry (names nfc entry) ++ allVisits nfc entries := by
      unfold allVisits
      rw [List.flatMap_cons, List.append_assoc]
    have hexplicit : ((entry :: entries).map fun entry => join (names nfc entry)).reverse ++ explicit =
        (entries.map fun entry => join (names nfc entry)).reverse ++ join (names nfc entry) :: explicit := by
      simp
    rw [List.foldlM_cons, hassoc, hexplicit, List.map_cons, List.nodup_cons, List.forall_mem_cons, List.forall_mem_cons]
    constructor
    · intro hok
      cases hadd : add nfc (treeOf explicit vs) entry with
      | error e =>
        rw [hadd] at hok
        cases hok
      | ok next =>
        rw [hadd] at hok
        obtain ⟨hparses, hnew, hvalid, rfl⟩ := (add_eq_ok h).mp hadd
        obtain ⟨hall, hdistinct, hfresh, hvalid', htree⟩ := (ih hvalid).mp hok
        refine ⟨⟨hparses, hall⟩, ⟨fun hmem => ?_, hdistinct⟩, ⟨hnew, fun e he hmem => hfresh e he (List.mem_cons_of_mem _ hmem)⟩,
          hvalid', htree⟩
        obtain ⟨e, he, heq⟩ := List.mem_map.mp hmem
        exact hfresh e he (heq ▸ List.mem_cons_self)
    · rintro ⟨⟨hparses, hall⟩, ⟨hfirst, hdistinct⟩, ⟨hnew, hfresh⟩, hvalid, rfl⟩
      rw [(add_eq_ok h).mpr ⟨hparses, hnew, hvalid.of_append, rfl⟩]
      refine (ih hvalid.of_append).mpr ⟨hall, hdistinct, fun e he hmem => ?_, hvalid, rfl⟩
      rcases List.mem_cons.mp hmem with heq | hold
      · exact hfirst (heq ▸ List.mem_map_of_mem (f := fun entry => join (names nfc entry)) he)
      · exact hfresh e he hold

/-- **Which entries are accepted, and their tree.** -/
theorem manifest_eq_ok {entries out : List (TreeEntry F)} : manifest nfc entries = .ok out ↔
    Accepts nfc entries ∧ out = sorted (build (allVisits nfc entries)) := by
  have hempty : (Tree.empty : Tree F) = treeOf [] [] := rfl
  have hfold (tree : Tree F) : entries.foldlM (add nfc) (treeOf [] []) = .ok tree ↔ _ := foldlM_add valid_nil
  unfold manifest
  rw [hempty]
  constructor
  · intro hok
    cases htree : entries.foldlM (add nfc) (treeOf [] []) with
    | error e =>
      rw [htree] at hok
      cases hok
    | ok tree =>
      rw [htree] at hok
      obtain ⟨hparses, hdistinct, -, hvalid, rfl⟩ := (hfold tree).mp htree
      exact ⟨⟨hparses, hdistinct, hvalid⟩, (Except.ok.inj hok).symm⟩
  · rintro ⟨haccepts, rfl⟩
    rw [(hfold _).mpr ⟨haccepts.parses, haccepts.distinct, fun _ _ => List.not_mem_nil, haccepts.valid, rfl⟩]
    rfl

end

end Manifest

end HomeCloud
