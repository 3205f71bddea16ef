import HomeCloud.Client.ManifestTree

/-!
# A tree is uploaded

The two places that make the folders and files of a tree, and what they rely on.

* `enqueueTree`: the owner's page, where a folder that is not found means the top.
* `execute`: the public panel, which may be run again with what it has remembered.
* `Placed`: everything is made under the folder that was made for its parent path.
* **`enqueueTree_placed`**, **`execute_placed`**, and what is made when every folder is.
* **`creatable_tree`**: which entries have a tree that is made whole.
-/

namespace HomeCloud

namespace Manifest

variable {F : Type} {nfc : JsString → JsString} {entries out : List (TreeEntry F)}

/-! ## What is made -/

def parentPath (path : JsString) : JsString := join (split path).dropLast

def baseName (path : JsString) : JsString := (split path).getLast?.getD []

/-- What is sent to the server or to the queue for the node of `path`; `folder` is the folder that the server confirms. -/
inductive Action (F : Type) where
  | mkdir (path name : JsString) (target folder : Option ℕ)
  | enqueue (path name : JsString) (file : F) (target : Option ℕ)
  deriving DecidableEq

def Action.path : Action F → JsString
  | mkdir path .. => path
  | enqueue path .. => path

def Action.name : Action F → JsString
  | mkdir _ name .. => name
  | enqueue _ name .. => name

def Action.target : Action F → Option ℕ
  | mkdir _ _ target _ => target
  | enqueue _ _ _ target => target

/-- **Under the folder of its parent path**, which is among what is done; at the top only without a parent. -/
def PlacedAt (root : Option ℕ) (done : List (Action F)) (a : Action F) : Prop :=
  a.name = baseName a.path ∧
    if (split a.path).length = 1 then a.target = root
    else ∃ name target id, a.target = some id ∧ .mkdir (parentPath a.path) name target (some id) ∈ done

def Placed (root : Option ℕ) : List (Action F) → List (Action F) → Prop
  | _, [] => True
  | done, a :: rest => PlacedAt root done a ∧ Placed root (done ++ [a]) rest

theorem placed_append {root : Option ℕ} {acts acts' : List (Action F)} : ∀ {done : List (Action F)},
    Placed root done (acts ++ acts') ↔ Placed root done acts ∧ Placed root (done ++ acts) acts' := by
  induction acts with
  | nil =>
    intro done
    rw [List.append_nil]
    exact (and_iff_right trivial).symm
  | cons a acts ih =>
    intro done
    have hassoc : done ++ a :: acts = done ++ [a] ++ acts := by simp
    rw [List.cons_append, hassoc]
    exact (and_congr_right fun _ => ih).trans and_assoc.symm

/-- What is to be made for a node: a folder, or the file that it comes with. -/
def made (node : TreeEntry F) : Option (TreeEntry F) :=
  match node.kind, node.file with
  | .folder, _ => some { node with file := none }
  | .file, some _ => some node
  | .file, none => none

def Action.node : Action F → TreeEntry F
  | mkdir path .. => ⟨path, .folder, none⟩
  | enqueue path _ file _ => ⟨path, .file, some file⟩

/-- **All of a tree**, each of its folders and files once. -/
def Whole (out : List (TreeEntry F)) (acts : List (Action F)) : Prop := (acts.map Action.node).Perm (out.filterMap made)

/-! ## The owner's page -/

inductive Failure where
  | refused (refusal : Refusal)
  | nothing
  | mkdir
  deriving DecidableEq

/-- What is done, and how it ends. -/
structure Run (F : Type) where
  actions : List (Action F)
  result : Except Failure Unit

def Run.after (a : Action F) (run : Run F) : Run F := ⟨a :: run.actions, run.result⟩

/-- `Number.isSafeInteger(folder.folderId) && folder.folderId > 0`, for the answer to a request. -/
def confirmed (answer : Option ℤ) : Option ℕ :=
  answer.bind fun folderId => if 0 < folderId ∧ folderId ≤ 2 ^ 53 - 1 then some folderId.toNat else none

/-- A request for a folder: its round, name and target, and the number that is answered. -/
abbrev CreateFolder := ℕ → JsString → Option ℕ → Option ℤ

section

variable (createFolder : CreateFolder) (alive : ℕ → Bool)

/-- The loop; a path that is not in `parents` gives no folder, as the top does where there is none. -/
def upload (parents : JsString → Option ℕ) (round : ℕ) : List (TreeEntry F) → Run F
  | [] => ⟨[], .ok ()⟩
  | node :: nodes =>
    if !alive round then ⟨[], .ok ()⟩
    else
      let name := baseName node.path
      let target := parents (parentPath node.path)
      match node.kind, node.file with
      | .folder, _ =>
        match confirmed (createFolder round name target) with
        | none => ⟨[.mkdir node.path name target none], .error .mkdir⟩
        | some folder =>
          (upload (Function.update parents node.path (some folder)) (round + 1) nodes).after
            (.mkdir node.path name target (some folder))
      | .file, some file => (upload parents (round + 1) nodes).after (.enqueue node.path name file target)
      | .file, none => upload parents (round + 1) nodes

def enqueueTree (nfc : JsString → JsString) (entries : List (TreeEntry F)) (parentId : Option ℕ) : Run F :=
  match manifest nfc entries with
  | .error refusal => ⟨[], .error (.refused refusal)⟩
  | .ok nodes =>
    if nodes.isEmpty then ⟨[], .error .nothing⟩
    else upload createFolder alive (fun path => if path = [] then parentId else none) 0 nodes

end

/-! ## The public panel -/

/-- An entry of a batch, with what a run of it remembers. -/
structure Node (F : Type) where
  entry : TreeEntry F
  parentId : Option ℕ
  fileJob : Option ℕ

/-- `mapping.get(parent)`, where 0 is no folder. -/
def lookup (mapping : JsString → Option ℕ) (path : JsString) : Option ℕ := (mapping (parentPath path)).filter (· ≠ 0)

/-- The folders of a batch: what is done, the nodes, and the mapping where the loop comes to its end. -/
structure Folders (F : Type) where
  actions : List (Action F)
  nodes : List (Node F)
  mapping : Option (JsString → Option ℕ)

def Folders.after (actions : List (Action F)) (node : Node F) (f : Folders F) : Folders F :=
  ⟨actions ++ f.actions, node :: f.nodes, f.mapping⟩

/-- A request for a folder, with its retries: its round, name and target, and the id that is answered. -/
abbrev Mkdir := ℕ → JsString → ℕ → Option ℕ

section

variable (mkdir : Mkdir) (alive : ℕ → Bool)

/-- The first loop. The panel may be gone at the start of a round, or at the answer of its request. -/
def makeFolders (mapping : JsString → Option ℕ) (round : ℕ) : List (Node F) → Folders F
  | [] => ⟨[], [], some mapping⟩
  | node :: nodes =>
    if !alive (2 * round) then ⟨[], node :: nodes, none⟩
    else
      match lookup mapping node.entry.path with
      | none => (makeFolders mapping (round + 1) nodes).after [] node
      | some target =>
        if node.parentId.any (· ≠ target) then ⟨[], node :: nodes, none⟩
        else
          let node' := { node with parentId := some target }
          match node.entry.kind with
          | .file => (makeFolders mapping (round + 1) nodes).after [] node'
          | .folder =>
            let name := baseName node.entry.path
            match mkdir round name target with
            | none => (makeFolders mapping (round + 1) nodes).after [.mkdir node.entry.path name (some target) none] node'
            | some id =>
              let action := .mkdir node.entry.path name (some target) (some id)
              if !alive (2 * round + 1) then ⟨[action], node' :: nodes, none⟩
              else (makeFolders (Function.update mapping node.entry.path (some id)) (round + 1) nodes).after [action] node'

/-- The second loop; a file that is in the queue already is not put there again. -/
def makeFiles (jobs : ℕ → ℕ) (alive : ℕ → Bool) (mapping : JsString → Option ℕ) (round : ℕ) :
    List (Node F) → List (Action F) × List (Node F)
  | [] => ([], [])
  | node :: nodes =>
    if node.entry.kind ≠ .file then
      let (actions, nodes') := makeFiles jobs alive mapping round nodes
      (actions, node :: nodes')
    else if !alive round then ([], node :: nodes)
    else
      let (actions, nodes') := makeFiles jobs alive mapping (round + 1) nodes
      match lookup mapping node.entry.path, node.fileJob, node.entry.file with
      | some target, none, some file =>
        (.enqueue node.entry.path (baseName node.entry.path) file (some target) :: actions,
          { node with fileJob := some (jobs round) } :: nodes')
      | _, _, _ => (actions, node :: nodes')

/-- `alive` and `alive'` are asked in the two loops. -/
def execute (jobs : ℕ → ℕ) (alive' : ℕ → Bool) (target : ℕ) (nodes : List (Node F)) : List (Action F) × List (Node F) :=
  let f := makeFolders mkdir alive (fun path => if path = [] then some target else none) 0 nodes
  match f.mapping with
  | none => (f.actions, f.nodes)
  | some mapping =>
    let (actions, nodes) := makeFiles jobs alive' mapping 0 f.nodes
    (f.actions ++ actions, nodes)

end

def batch (entries : List (TreeEntry F)) : List (Node F) := entries.map fun entry => ⟨entry, none, none⟩

/-- What is done for the entries that are chosen. -/
def start (mkdir : Mkdir) (alive : ℕ → Bool) (jobs : ℕ → ℕ) (alive' : ℕ → Bool) (nfc : JsString → JsString) (target : ℕ)
    (entries : List (TreeEntry F)) : List (Action F) :=
  match manifest nfc entries with
  | .error _ => []
  | .ok nodes => if nodes.isEmpty then [] else (execute mkdir alive jobs alive' target (batch nodes)).1

/-! ## Where it is made -/

/-- What a mapping of paths to folders knows is what was made. -/
structure Knows (root : Option ℕ) (done : List (Action F)) (mapping : JsString → Option ℕ) : Prop where
  top : mapping [] = root
  made : ∀ path id, path ≠ [] → mapping path = some id → ∃ name target, .mkdir path name target (some id) ∈ done

section

variable {root : Option ℕ} {done : List (Action F)} {mapping : JsString → Option ℕ} {pre post : List (TreeEntry F)}
  {x : TreeEntry F} {a : Action F}

variable (root) in
theorem knows_top : Knows root ([] : List (Action F)) fun path => if path = [] then root else none where
  top := if_pos rfl
  made path id hne h := by
    rw [if_neg hne] at h
    cases h

theorem Knows.append (h : Knows root done mapping) : Knows root (done ++ [a]) mapping where
  top := h.top
  made path id hne hmapping := by
    obtain ⟨name, target, hmem⟩ := h.made path id hne hmapping
    exact ⟨name, target, List.mem_append_left _ hmem⟩

/-- A folder is made. -/
theorem Knows.update {path name : JsString} {target : Option ℕ} {id : ℕ} (h : Knows root done mapping) (hne : path ≠ []) :
    Knows root (done ++ [.mkdir path name target (some id)]) (Function.update mapping path (some id)) where
  top := by rw [Function.update_of_ne hne.symm, h.top]
  made path' id' hne' hmapping := by
    rw [Function.update_apply] at hmapping
    split_ifs at hmapping with hpath
    · obtain rfl := Option.some.inj hmapping
      exact ⟨name, target, hpath ▸ List.mem_append_right _ (List.mem_singleton_self _)⟩
    · exact h.append.made path' id' hne' hmapping

theorem parentPath_top (h : depth x = 1) : parentPath x.path = [] := by
  unfold parentPath
  rw [List.dropLast_eq_take, show (split x.path).length - 1 = 0 by unfold depth at h; omega]
  rfl

/-- The parent of a node below the top is a folder before it. -/
theorem exists_parentPath (h : Creatable (pre ++ x :: post)) (hdepth : depth x ≠ 1) :
    ∃ y ∈ pre, y.path = parentPath x.path ∧ y.kind = .folder ∧ parentPath x.path ≠ [] := by
  have hlength : 0 < depth x := List.length_pos_iff.mpr split_ne_nil
  obtain ⟨y, hy, hpath, hkind⟩ := h.parents pre x post rfl (depth x - 1) (by omega) (by omega)
  have hparent : y.path = parentPath x.path := by
    unfold parentPath
    rw [List.dropLast_eq_take]
    exact hpath
  exact ⟨y, hy, hparent, hkind, hparent ▸ h.named y (List.mem_append_left _ hy)⟩

/-- What goes where the parent path is mapped to is placed. -/
theorem placedAt_of_lookup (h : Creatable (pre ++ x :: post)) (hknows : Knows root done mapping) (hpath : a.path = x.path)
    (hname : a.name = baseName x.path) (htarget : a.target = mapping (parentPath x.path))
    (hfound : depth x ≠ 1 → ∃ id, mapping (parentPath x.path) = some id) : PlacedAt root done a := by
  unfold PlacedAt
  rw [hpath, htarget]
  refine ⟨hname, ?_⟩
  split_ifs with hdepth
  · rw [parentPath_top hdepth, hknows.top]
  · obtain ⟨-, -, -, -, hne⟩ := exists_parentPath h hdepth
    obtain ⟨id, hid⟩ := hfound hdepth
    obtain ⟨name, target, hmem⟩ := hknows.made _ id hne hid
    exact ⟨name, target, id, hid, hmem⟩

/-- The folders among some nodes are mapped. -/
def Mapped (pre : List (TreeEntry F)) (mapping : JsString → Option ℕ) : Prop :=
  ∀ y ∈ pre, y.kind = .folder → ∃ id, mapping y.path = some id ∧ id ≠ 0

theorem Mapped.found (hmapped : Mapped pre mapping) (h : Creatable (pre ++ x :: post)) (hdepth : depth x ≠ 1) :
    ∃ id, mapping (parentPath x.path) = some id ∧ id ≠ 0 := by
  obtain ⟨y, hy, hpath, hkind, -⟩ := exists_parentPath h hdepth
  exact hpath ▸ hmapped y hy hkind

theorem Mapped.file (hmapped : Mapped pre mapping) (hkind : x.kind = .file) : Mapped (pre ++ [x]) mapping := by
  intro y hy hfolder
  rcases List.mem_append.mp hy with hpre | hx
  · exact hmapped y hpre hfolder
  · rw [List.mem_singleton.mp hx, hkind] at hfolder
    cases hfolder

theorem Mapped.update {id : ℕ} (hmapped : Mapped pre mapping) (hid : id ≠ 0) :
    Mapped (pre ++ [x]) (Function.update mapping x.path (some id)) := by
  intro y hy hfolder
  rw [Function.update_apply]
  split_ifs with hpath
  · exact ⟨id, rfl, hid⟩
  · rcases List.mem_append.mp hy with hpre | hx
    · exact hmapped y hpre hfolder
    · exact absurd (congrArg TreeEntry.path (List.mem_singleton.mp hx)) hpath

end

/-! ## The owner's page -/

theorem confirmed_ne_zero {answer : Option ℤ} {folder : ℕ} (h : confirmed answer = some folder) : folder ≠ 0 := by
  obtain ⟨folderId, -, hfolder⟩ := Option.bind_eq_some_iff.mp h
  split_ifs at hfolder with hsafe
  obtain rfl := Option.some.inj hfolder
  omega

section

variable {createFolder : CreateFolder} {alive : ℕ → Bool} {root : Option ℕ}

theorem upload_placed {nodes : List (TreeEntry F)} : ∀ (pre : List (TreeEntry F)) {parents : JsString → Option ℕ} {round : ℕ}
    {done : List (Action F)}, Creatable (pre ++ nodes) → Knows root done parents → Mapped pre parents →
      Placed root done (upload createFolder alive parents round nodes).actions := by
  induction nodes with
  | nil => exact fun _ _ _ _ _ _ _ => trivial
  | cons x nodes ih =>
    intro pre parents round done h hknows hmapped
    have hnext : Creatable (pre ++ [x] ++ nodes) := by rwa [List.append_assoc, List.singleton_append]
    have hplaced (a : Action F) (hpath : a.path = x.path) (hname : a.name = baseName x.path)
        (htarget : a.target = parents (parentPath x.path)) : PlacedAt root done a :=
      placedAt_of_lookup h hknows hpath hname htarget fun hdepth => (hmapped.found h hdepth).imp fun _ hid => hid.1
    unfold upload
    split_ifs with halive
    · trivial
    · dsimp only
      split
      next hkind =>
        split
        next => exact ⟨hplaced _ rfl rfl rfl, trivial⟩
        next folder hfolder =>
          refine ⟨hplaced _ rfl rfl rfl, ih _ hnext (hknows.update ?_) (hmapped.update (confirmed_ne_zero hfolder))⟩
          exact h.named x (List.mem_append_right _ List.mem_cons_self)
      next hkind hfile => exact ⟨hplaced _ rfl rfl rfl, ih _ hnext hknows.append (hmapped.file hkind)⟩
      next hkind hfile => exact ih _ hnext hknows (hmapped.file hkind)

/-- **The owner's page puts everything under the folder of its parent path.** -/
theorem enqueueTree_placed (h : manifest nfc entries = .ok out) :
    Placed root [] (enqueueTree createFolder alive nfc entries root).actions := by
  unfold enqueueTree
  rw [h]
  dsimp only
  split_ifs
  · trivial
  · exact upload_placed [] (creatable_manifest h) (knows_top root) fun _ hy => absurd hy List.not_mem_nil

theorem upload_whole (halive : ∀ round, alive round = true)
    (hall : ∀ round name target, confirmed (createFolder round name target) ≠ none) {nodes : List (TreeEntry F)} :
    ∀ {parents : JsString → Option ℕ} {round : ℕ},
      (upload createFolder alive parents round nodes).actions.map Action.node = nodes.filterMap made ∧
        (upload createFolder alive parents round nodes).result = .ok () := by
  induction nodes with
  | nil => exact ⟨rfl, rfl⟩
  | cons x nodes ih =>
    intro parents round
    obtain ⟨path, kind, file⟩ := x
    unfold upload
    rw [halive round]
    cases kind with
    | folder =>
      cases hfolder : confirmed (createFolder round (baseName path) (parents (parentPath path))) with
      | none => exact absurd hfolder (hall _ _ _)
      | some folder =>
        simp only [Bool.not_true, Bool.false_eq_true, if_false, hfolder]
        exact ⟨congrArg (_ :: ·) ih.1, ih.2⟩
    | file =>
      cases file with
      | none => exact ih
      | some file => exact ⟨congrArg (_ :: ·) ih.1, ih.2⟩

end

/-! ## The public panel -/

theorem lookup_eq_some {mapping : JsString → Option ℕ} {path : JsString} {id : ℕ} :
    lookup mapping path = some id ↔ mapping (parentPath path) = some id ∧ id ≠ 0 := by
  unfold lookup
  rw [Option.filter_eq_some_iff, decide_eq_true_eq]

section

variable {mkdir : Mkdir} {alive alive' : ℕ → Bool} {jobs : ℕ → ℕ} {root : Option ℕ}

variable (mkdir alive) in
/-- **The first loop**: what it makes is placed, it keeps the entries, and its mapping knows what was made. -/
theorem makeFolders_placed {nodes : List (Node F)} : ∀ (pre : List (TreeEntry F)) {mapping : JsString → Option ℕ} (round : ℕ)
    {done : List (Action F)}, Creatable (pre ++ nodes.map (·.entry)) → Knows root done mapping →
      Placed root done (makeFolders mkdir alive mapping round nodes).actions ∧
      (makeFolders mkdir alive mapping round nodes).nodes.map (·.entry) = nodes.map (·.entry) ∧
      ∀ m, (makeFolders mkdir alive mapping round nodes).mapping = some m →
        Knows root (done ++ (makeFolders mkdir alive mapping round nodes).actions) m := by
  induction nodes with
  | nil =>
    intro pre mapping round done _ hknows
    refine ⟨trivial, rfl, fun m hm => ?_⟩
    obtain rfl := Option.some.inj hm
    exact (List.append_nil done).symm ▸ hknows
  | cons node nodes ih =>
    intro pre mapping round done h hknows
    have hnext : Creatable (pre ++ [node.entry] ++ nodes.map (·.entry)) := by
      rwa [List.append_assoc, List.singleton_append]
    have hskip := ih _ (round + 1) hnext hknows
    have hplaced (a : Action F) (target : ℕ) (hpath : a.path = node.entry.path) (hname : a.name = baseName node.entry.path)
        (htarget : a.target = some target) (hlookup : lookup mapping node.entry.path = some target) :
        PlacedAt root done a := by
      obtain ⟨hmapping, -⟩ := lookup_eq_some.mp hlookup
      exact placedAt_of_lookup h hknows hpath hname (htarget.trans hmapping.symm) fun _ => ⟨target, hmapping⟩
    unfold makeFolders
    by_cases halive : (!alive (2 * round)) = true
    · rw [if_pos halive]
      exact ⟨trivial, rfl, nofun⟩
    · rw [if_neg halive]
      split
      next => exact ⟨hskip.1, congrArg (_ :: ·) hskip.2.1, hskip.2.2⟩
      next target htarget =>
        by_cases hparent : node.parentId.any (· ≠ target) = true
        · rw [if_pos hparent]
          exact ⟨trivial, rfl, nofun⟩
        · rw [if_neg hparent]
          dsimp only
          split
          next => exact ⟨hskip.1, congrArg (_ :: ·) hskip.2.1, hskip.2.2⟩
          next =>
            split
            next =>
              have hrest := ih _ (round + 1) hnext (hknows.append (a := .mkdir node.entry.path (baseName node.entry.path)
                (some target) none))
              refine ⟨⟨hplaced _ target rfl rfl rfl htarget, hrest.1⟩, congrArg (_ :: ·) hrest.2.1, fun m hm => ?_⟩
              have hknows' := hrest.2.2 m hm
              rwa [List.append_assoc] at hknows'
            next id hid =>
              have hupdate : Knows root (done ++ [.mkdir node.entry.path (baseName node.entry.path) (some target) (some id)])
                  (Function.update mapping node.entry.path (some id)) :=
                hknows.update (h.named node.entry (List.mem_append_right _ List.mem_cons_self))
              have hrest := ih _ (round + 1) hnext hupdate
              split_ifs with hgone
              · exact ⟨⟨hplaced _ target rfl rfl rfl htarget, trivial⟩, rfl, nofun⟩
              · refine ⟨⟨hplaced _ target rfl rfl rfl htarget, hrest.1⟩, congrArg (_ :: ·) hrest.2.1, fun m hm => ?_⟩
                have hknows' := hrest.2.2 m hm
                rwa [List.append_assoc] at hknows'

theorem makeFiles_placed {nodes : List (Node F)} {mapping : JsString → Option ℕ} : ∀ (pre : List (TreeEntry F)) {round : ℕ}
    {done : List (Action F)}, Creatable (pre ++ nodes.map (·.entry)) → Knows root done mapping →
      Placed root done (makeFiles jobs alive mapping round nodes).1 := by
  induction nodes with
  | nil => exact fun _ _ _ _ _ => trivial
  | cons node nodes ih =>
    intro pre round done h hknows
    have hnext : Creatable (pre ++ [node.entry] ++ nodes.map (·.entry)) := by
      rwa [List.append_assoc, List.singleton_append]
    unfold makeFiles
    split_ifs with hkind halive
    · exact ih _ hnext hknows
    · trivial
    · dsimp only
      split
      next target file htarget hjob hfile =>
        obtain ⟨hmapping, -⟩ := lookup_eq_some.mp htarget
        refine ⟨placedAt_of_lookup h hknows rfl rfl hmapping.symm fun _ => ⟨target, hmapping⟩, ih _ hnext hknows.append⟩
      next => exact ih _ hnext hknows

theorem makeFiles_entries {nodes : List (Node F)} {mapping : JsString → Option ℕ} : ∀ {round : ℕ},
    (makeFiles jobs alive mapping round nodes).2.map (·.entry) = nodes.map (·.entry) := by
  induction nodes with
  | nil => exact rfl
  | cons node nodes ih =>
    intro round
    unfold makeFiles
    split_ifs with hkind halive
    · exact congrArg (_ :: ·) ih
    · rfl
    · dsimp only
      split
      next => exact congrArg (_ :: ·) ih
      next => exact congrArg (_ :: ·) ih

/-- **The panel puts everything under the folder of its parent path**, in every run over a batch. -/
theorem execute_placed {target : ℕ} {nodes : List (Node F)} (h : Creatable (nodes.map (·.entry))) :
    Placed (some target) [] (execute mkdir alive jobs alive' target nodes).1 ∧
      (execute mkdir alive jobs alive' target nodes).2.map (·.entry) = nodes.map (·.entry) := by
  obtain ⟨hplaced, hentries, hknows⟩ := makeFolders_placed mkdir alive [] 0 h (knows_top (some target))
  unfold execute
  dsimp only
  split
  next => exact ⟨hplaced, hentries⟩
  next m hm =>
    refine ⟨placed_append.mpr ⟨hplaced, makeFiles_placed [] (hentries ▸ h) (hknows m hm)⟩, ?_⟩
    exact makeFiles_entries.trans hentries

/-- The folders of a batch that is run for the first time, when every request for one is answered. -/
theorem makeFolders_whole (halive : ∀ n, alive n = true)
    (hall : ∀ round name target, ∃ id, mkdir round name target = some id ∧ id ≠ 0) {nodes : List (TreeEntry F)} :
    ∀ (pre : List (TreeEntry F)) (mapping : JsString → Option ℕ) (round : ℕ) {target : ℕ}, Creatable (pre ++ nodes) →
      mapping [] = some target → target ≠ 0 → Mapped pre mapping →
      (makeFolders mkdir alive mapping round (batch nodes)).actions.map Action.node =
        (nodes.filter (·.kind = .folder)).filterMap made ∧
      (∀ node ∈ (makeFolders mkdir alive mapping round (batch nodes)).nodes, node.fileJob = none) ∧
      ∃ m, (makeFolders mkdir alive mapping round (batch nodes)).mapping = some m ∧ m [] = some target ∧
        Mapped (pre ++ nodes) m := by
  induction nodes with
  | nil =>
    intro pre mapping round target _ htop _ hmapped
    exact ⟨rfl, fun _ h => absurd h List.not_mem_nil, mapping, rfl, htop, (List.append_nil pre).symm ▸ hmapped⟩
  | cons x nodes ih =>
    intro pre mapping round target h htop hne hmapped
    have hassoc : pre ++ x :: nodes = pre ++ [x] ++ nodes := by simp
    have hlookup : ∃ id, lookup mapping x.path = some id := by
      by_cases hdepth : depth x = 1
      · exact ⟨target, lookup_eq_some.mpr ⟨by rw [parentPath_top hdepth, htop], hne⟩⟩
      · exact (hmapped.found h hdepth).imp fun _ hid => lookup_eq_some.mpr hid
    obtain ⟨id, hid⟩ := hlookup
    have hname := h.named x (List.mem_append_right _ List.mem_cons_self)
    rw [hassoc] at h ⊢
    obtain ⟨path, kind, file⟩ := x
    have hbatch : batch (⟨path, kind, file⟩ :: nodes) = ⟨⟨path, kind, file⟩, none, none⟩ :: batch nodes := rfl
    rw [hbatch]
    unfold makeFolders
    dsimp only at hid ⊢
    rw [halive, hid]
    cases kind with
    | folder =>
      obtain ⟨folder, hfolder, hfolder'⟩ := hall round (baseName path) id
      have htop' : Function.update mapping path (some folder) [] = some target := by
        rw [Function.update_of_ne hname.symm, htop]
      obtain ⟨hacts, hjobs, m, hm, hmtop, hmm⟩ := ih _ _ (round + 1) h htop' hne (hmapped.update hfolder')
      simp only [Bool.not_true, Bool.false_eq_true, if_false, Option.any_none, hfolder, halive]
      exact ⟨congrArg (_ :: ·) hacts, List.forall_mem_cons.mpr ⟨rfl, hjobs⟩, m, hm, hmtop, hmm⟩
    | file =>
      obtain ⟨hacts, hjobs, m, hm, hmtop, hmm⟩ := ih _ _ (round + 1) h htop hne (hmapped.file rfl)
      simp only [Bool.not_true, Bool.false_eq_true, if_false, Option.any_none]
      exact ⟨hacts, List.forall_mem_cons.mpr ⟨rfl, hjobs⟩, m, hm, hmtop, hmm⟩

variable (jobs) in
theorem makeFiles_whole (halive : ∀ n, alive n = true) {mapping : JsString → Option ℕ} {nodes : List (Node F)}
    (hjobs : ∀ node ∈ nodes, node.fileJob = none) (hfound : ∀ node ∈ nodes, ∃ id, lookup mapping node.entry.path = some id) :
    ∀ (round : ℕ), (makeFiles jobs alive mapping round nodes).1.map Action.node =
      ((nodes.map (·.entry)).filter (·.kind ≠ .folder)).filterMap made := by
  induction nodes with
  | nil => exact fun _ => rfl
  | cons node nodes ih =>
    intro round
    obtain ⟨⟨path, kind, file⟩, parentId, fileJob⟩ := node
    obtain ⟨hjob, hrest⟩ := List.forall_mem_cons.mp hjobs
    obtain ⟨⟨id, hid⟩, hfound'⟩ := List.forall_mem_cons.mp hfound
    dsimp only at hjob hid
    unfold makeFiles
    rw [halive]
    cases kind with
    | folder => exact ih hrest hfound' _
    | file =>
      simp only [ne_eq, not_true_eq_false, if_false, Bool.not_true, Bool.false_eq_true, hid, hjob]
      cases file with
      | none => exact ih hrest hfound' _
      | some file => exact congrArg (_ :: ·) (ih hrest hfound' _)

/-- **The panel makes all of a tree** where every request for a folder is answered. -/
theorem execute_whole (halive : ∀ n, alive n = true) (halive' : ∀ n, alive' n = true)
    (hall : ∀ round name target, ∃ id, mkdir round name target = some id ∧ id ≠ 0) {target : ℕ} (htarget : target ≠ 0)
    (h : Creatable out) : Whole out (execute mkdir alive jobs alive' target (batch out)).1 := by
  obtain ⟨hacts, hjobs, m, hm, hmtop, hmm⟩ := makeFolders_whole halive hall []
    (fun path => if path = [] then some target else none) 0 h rfl htarget fun _ hy => absurd hy List.not_mem_nil
  have hbatch : (batch out).map (·.entry) = out := by
    unfold batch
    rw [List.map_map]
    exact List.map_id' out
  have hentries := (makeFolders_placed mkdir alive [] 0 (by rw [hbatch]; exact h) (knows_top (some target))).2.1
  rw [hbatch] at hentries
  have hfound : ∀ node ∈ (makeFolders mkdir alive (fun path => if path = [] then some target else none) 0 (batch out)).nodes,
      ∃ id, lookup m node.entry.path = some id := by
    intro node hnode
    have hmem : node.entry ∈ out := hentries ▸ List.mem_map_of_mem hnode
    obtain ⟨pre, post, hsplit⟩ := List.append_of_mem hmem
    by_cases hdepth : depth node.entry = 1
    · exact ⟨target, lookup_eq_some.mpr ⟨by rw [parentPath_top hdepth, hmtop], htarget⟩⟩
    · have hpre : Mapped pre m := fun y hy => hmm y (by rw [List.nil_append, hsplit]; exact List.mem_append_left _ hy)
      exact (hpre.found (hsplit ▸ h) hdepth).imp fun _ hid => lookup_eq_some.mpr hid
  have hfiles := makeFiles_whole jobs halive' hjobs hfound 0
  rw [hentries] at hfiles
  unfold Whole execute
  dsimp only
  rw [hm]
  dsimp only
  rw [List.map_append, hacts, hfiles, ← List.filterMap_append]
  refine List.Perm.filterMap _ ?_
  simpa only [ne_eq, decide_not] using List.filter_append_perm (fun x : TreeEntry F => decide (x.kind = .folder)) out

end

/-! ## Which trees are made -/

/-- Everything that is done for a tree is placed, and it is all of the tree when the page stays and every request for a
folder is answered. -/
structure Uploads (nfc : JsString → JsString) (out : List (TreeEntry F)) : Prop where
  placed : ∀ createFolder alive root, Placed root [] (enqueueTree createFolder alive nfc out root).actions
  whole : ∀ createFolder alive root, (∀ round, alive round = true) →
    (∀ round name target, confirmed (createFolder round name target) ≠ none) →
      Whole out (enqueueTree createFolder alive nfc out root).actions
  panel_placed : ∀ mkdir alive jobs alive' target, Placed (some target) [] (start mkdir alive jobs alive' nfc target out)
  panel_again : ∀ mkdir alive jobs alive' target (nodes : List (Node F)), nodes.map (·.entry) = out →
    Placed (some target) [] (execute mkdir alive jobs alive' target nodes).1
  panel_whole : ∀ mkdir alive jobs alive' target, (∀ n, alive n = true) → (∀ n, alive' n = true) →
    (∀ round name target, ∃ id, mkdir round name target = some id ∧ id ≠ 0) → target ≠ 0 →
      Whole out (start mkdir alive jobs alive' nfc target out)

/-- **What a tree of entries is to be.** -/
structure Yields (nfc : JsString → JsString) (entries : List (TreeEntry F)) : Prop where
  tree : ∀ out, manifest nfc entries = .ok out → Creatable out
  order : ∀ entries', entries.Perm entries' → SameTree (manifest nfc entries) (manifest nfc entries')
  again : ∀ out, manifest nfc entries = .ok out → manifest nfc out = .ok out
  uploads : ∀ out, manifest nfc entries = .ok out → Uploads nfc out

theorem uploads_of_again (h : manifest nfc out = .ok out) : Uploads nfc out where
  placed createFolder alive root := enqueueTree_placed h
  whole createFolder alive root halive hall := by
    unfold enqueueTree
    rw [h]
    dsimp only
    cases out with
    | nil => exact .refl _
    | cons x out =>
      unfold Whole
      rw [if_neg (by simp), (upload_whole halive hall).1]
  panel_placed mkdir alive jobs alive' target := by
    have hbatch : (batch out).map (·.entry) = out := by
      unfold batch
      rw [List.map_map]
      exact List.map_id' out
    unfold start
    rw [h]
    dsimp only
    split_ifs
    · trivial
    · exact (execute_placed (hbatch.symm ▸ creatable_manifest h)).1
  panel_again mkdir alive jobs alive' target nodes hnodes := (execute_placed (hnodes ▸ creatable_manifest h)).1
  panel_whole mkdir alive jobs alive' target halive halive' hall htarget := by
    unfold start
    rw [h]
    dsimp only
    cases out with
    | nil => exact .refl _
    | cons x out =>
      rw [if_neg (by simp)]
      exact execute_whole halive halive' hall htarget (creatable_manifest h)

/-- **Which entries have a tree that is made whole**: of those that are accepted, the ones whose paths do not look absolute
once they are normalized, and whose folders with a file are empty. -/
theorem creatable_tree (hnfc : ∀ s, nfc (trim (nfc s)) = trim (nfc s)) :
    Yields nfc entries ↔ (Accepts nfc entries → Relative nfc entries ∧ Bare nfc entries) := by
  constructor
  · intro h haccepts
    refine ⟨relative_of_again ?_, bare_of_perm haccepts h.order⟩
    exact (manifest_eq_ok.mp (h.again _ (manifest_eq_ok.mpr ⟨haccepts, rfl⟩))).1
  · intro h
    have hagain : ∀ out, manifest nfc entries = .ok out → manifest nfc out = .ok out := by
      intro out hout
      obtain ⟨haccepts, rfl⟩ := manifest_eq_ok.mp hout
      exact manifest_again hnfc haccepts (h haccepts).1 (h haccepts).2
    exact
      { tree := fun out hout => creatable_manifest hout
        order := fun entries' hperm => manifest_perm (fun haccepts => (h haccepts).2) hperm
        again := hagain
        uploads := fun out hout => uploads_of_again (hagain out hout) }

/-- The folder `a` with a file in it. -/
theorem creatable_tree_of_folder : Yields id [⟨[0x61], .folder, none⟩, ⟨[0x61, 0x2F, 0x62], .file, some ()⟩] :=
  (creatable_tree fun _ => rfl).mpr fun _ => by
    unfold Relative Bare
    decide +kernel

/-- A folder whose name is a space before `c:x` is accepted once. -/
theorem not_yields_drive : ¬Yields id [⟨[0x20, 0x63, 0x3A, 0x78], .folder, (none : Option Unit)⟩] := by
  intro h
  have haccepted : manifest id [⟨[0x20, 0x63, 0x3A, 0x78], .folder, (none : Option Unit)⟩] =
      .ok [⟨[0x63, 0x3A, 0x78], .folder, none⟩] := by decide +kernel
  have hrefused : manifest id [⟨[0x63, 0x3A, 0x78], .folder, (none : Option Unit)⟩] = .error .absolute := by decide +kernel
  have hagain := h.again _ haccepted
  rw [hrefused] at hagain
  cases hagain

end Manifest

end HomeCloud
