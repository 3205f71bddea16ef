import HomeCloud.Client.Manifest
import Mathlib.Data.List.DropRight
import Mathlib.Data.List.TakeWhile

/-!
# The tree that is made

* `visits_eq`: the folders of an entry, then the entry.
* `Creatable`, `creatable_manifest`: every folder comes before what is in it.
* `manifest_perm`: the order of the entries does not matter, for folders without a file.
* **`manifest_again`**: the tree is accepted again, and stays as it is.
-/

namespace HomeCloud

namespace Manifest

open Storage

variable {F : Type} {nfc : JsString → JsString} {entries out : List (TreeEntry F)} {entry x y : TreeEntry F}
  {parts names' : List JsString} {path : JsString}

/-! ## Paths and their names -/

theorem valid_ne_nil {name : JsString} (h : validName name = true) : name ≠ [] := by
  rintro rfl
  cases h

theorem not_slash {name : JsString} (h : validName name = true) : (0x2F : UInt16) ∉ name := by
  intro hmem
  have hany : name.any isSlash = true := List.any_eq_true.mpr ⟨0x2F, hmem, rfl⟩
  unfold validName at h
  simp [hany] at h

/-- What valid names are joined to is split into them. -/
theorem split_join (hne : parts ≠ []) (hvalid : ∀ name ∈ parts, validName name = true) : split (join parts) = parts :=
  List.splitOn_intercalate 0x2F (fun name hname => not_slash (hvalid name hname)) hne

theorem join_split : join (split path) = path := List.intercalate_splitOn 0x2F

theorem split_ne_nil : split path ≠ [] := List.splitOn_ne_nil 0x2F path

theorem length_names : (names nfc entry).length = (split entry.path).length := List.length_map _

theorem names_ne_nil : names nfc entry ≠ [] := by
  intro h
  exact split_ne_nil (List.map_eq_nil_iff.mp h)

theorem join_append {init rest : List JsString} (hinit : init ≠ []) (hrest : rest ≠ []) :
    join (init ++ rest) = join init ++ 0x2F :: join rest := by
  induction init with
  | nil => exact absurd rfl hinit
  | cons name init ih =>
    unfold join at ih ⊢
    rw [List.cons_append, List.intercalate_cons_of_ne_nil (List.append_ne_nil_of_right_ne_nil init hrest)]
    cases init with
    | nil => simp
    | cons name' init =>
      rw [ih (List.cons_ne_nil name' init), List.intercalate_cons_of_ne_nil (List.cons_ne_nil name' init)]
      simp

/-- What does not begin with a space is left alone. -/
theorem dropWhile_prefix {s t : JsString} (hstart : t <+: s.dropWhile isJsSpace) : t.dropWhile isJsSpace = t := by
  cases t with
  | nil => rfl
  | cons c t =>
    obtain ⟨rest, hrest⟩ := hstart
    have hsame : (s.dropWhile isJsSpace).dropWhile isJsSpace = s.dropWhile isJsSpace := List.dropWhile_idempotent isJsSpace s
    rw [← hrest, List.cons_append, List.dropWhile_cons] at hsame
    rw [List.dropWhile_cons]
    split_ifs at hsame ⊢
    · have hlength := congrArg List.length hsame
      have hle := (List.dropWhile_suffix isJsSpace (l := t ++ rest)).length_le
      rw [List.length_cons] at hlength
      omega
    · rfl

theorem trim_trim (s : JsString) : trim (trim s) = trim s := by
  have htrim (s : JsString) : trim s = (s.dropWhile isJsSpace).rdropWhile isJsSpace := rfl
  have hfront : (trim s).dropWhile isJsSpace = trim s := by
    rw [htrim]
    exact dropWhile_prefix (List.rdropWhile_prefix isJsSpace _)
  rw [htrim (trim s), hfront, htrim s, List.rdropWhile_idempotent]

/-- A slash is no half of a pair. -/
theorem byteLength_append_slash (t : JsString) : ∀ s : JsString, byteLength (s ++ 0x2F :: t) = byteLength s + 1 + byteLength t
  | [] => by
    rw [List.nil_append, byteLength_cons (by decide), byteLength, Nat.zero_add]
  | [c] => by
    have hslash : byteLength (0x2F :: t) = 1 + byteLength t := byteLength_cons (by decide) t
    have hlow : isLowSurrogate 0x2F = false := by decide
    rw [List.cons_append, List.nil_append, byteLength.eq_3, hlow, Bool.and_false, if_neg Bool.false_ne_true, hslash,
      byteLength.eq_2]
    split_ifs <;> omega
  | c :: d :: s => by
    have hnext := byteLength_append_slash t (d :: s)
    have hrest := byteLength_append_slash t s
    rw [List.cons_append] at hnext
    rw [List.cons_append, List.cons_append, byteLength.eq_3, byteLength.eq_3, hnext, hrest]
    split_ifs <;> omega

theorem byteLength_join_take {n : ℕ} (hn : 0 < n) : byteLength (join (parts.take n)) ≤ byteLength (join parts) := by
  by_cases hrest : parts.drop n = []
  · have htake : parts.take n = parts := List.take_of_length_le (List.drop_eq_nil_iff.mp hrest)
    rw [htake]
  · cases parts with
    | nil => exact absurd List.drop_nil hrest
    | cons name parts =>
      have htake : (name :: parts).take n ≠ [] := by
        obtain ⟨m, rfl⟩ := Nat.exists_eq_add_of_lt hn
        rw [Nat.zero_add, List.take_succ_cons]
        exact List.cons_ne_nil _ _
      conv_rhs => rw [← List.take_append_drop n (name :: parts), join_append htake hrest, byteLength_append_slash]
      omega

/-! ## What an entry adds -/

/-- The folders of an entry, then the entry. -/
theorem visits_eq (hparts : parts ≠ []) : visits entry parts =
    ((List.range (parts.length - 1)).map fun i =>
      ⟨join ((split entry.path).take (i + 1)), ⟨join (parts.take (i + 1)), .folder, none⟩⟩) ++
      [⟨join ((split entry.path).take parts.length), { entry with path := join parts }⟩] := by
  have hlength : parts.length - 1 + 1 = parts.length := Nat.sub_add_cancel (List.length_pos_iff.mpr hparts)
  unfold visits
  conv_lhs => rw [← hlength, List.range_succ, List.map_append, List.map_singleton]
  rw [hlength, if_pos rfl]
  congr 1
  refine List.map_congr_left fun i hi => ?_
  rw [List.mem_range] at hi
  rw [if_neg (by omega)]

/-- What is added for an entry: one of its folders, or itself. -/
theorem mem_visits {v : Visit F} : v ∈ visits entry (names nfc entry) ↔
    (∃ i, 0 < i ∧ i < (names nfc entry).length ∧
      v = ⟨join ((split entry.path).take i), ⟨join ((names nfc entry).take i), .folder, none⟩⟩) ∨
      v = ⟨entry.path, { entry with path := join (names nfc entry) }⟩ := by
  have hraw : (split entry.path).take (names nfc entry).length = split entry.path := by
    rw [length_names, List.take_length]
  rw [visits_eq names_ne_nil, List.mem_append, List.mem_map, List.mem_singleton, hraw, join_split]
  refine or_congr_left ⟨?_, ?_⟩
  · rintro ⟨i, hi, rfl⟩
    rw [List.mem_range] at hi
    exact ⟨i + 1, Nat.succ_pos i, by omega, rfl⟩
  · rintro ⟨i, hpos, hlt, rfl⟩
    obtain ⟨j, rfl⟩ := Nat.exists_eq_succ_of_ne_zero hpos.ne'
    exact ⟨j, List.mem_range.mpr (by omega), rfl⟩

theorem mem_allVisits {v : Visit F} : v ∈ allVisits nfc entries ↔ ∃ entry ∈ entries, v ∈ visits entry (names nfc entry) :=
  List.mem_flatMap

/-- The path of what is added is some names of the path of its entry. -/
theorem path_visits {v : Visit F} (h : v ∈ visits entry (names nfc entry)) :
    ∃ i, 0 < i ∧ i ≤ (names nfc entry).length ∧ v.node.path = join ((names nfc entry).take i) := by
  rcases mem_visits.mp h with ⟨i, hpos, hlt, rfl⟩ | rfl
  · exact ⟨i, hpos, hlt.le, rfl⟩
  · exact ⟨_, List.length_pos_iff.mpr names_ne_nil, le_rfl, by rw [List.take_length]⟩

/-! ## The tree can be made -/

/-- **A tree that can be made**: its paths are distinct, and the folders of a path come before it. The empty path is the
place where the tree is made. -/
structure Creatable (out : List (TreeEntry F)) : Prop where
  named : ∀ x ∈ out, x.path ≠ []
  distinct : (out.map (·.path)).Nodup
  parents : ∀ pre x post, out = pre ++ x :: post → ∀ i, 0 < i → i < depth x →
    ∃ y ∈ pre, y.path = join ((split x.path).take i) ∧ y.kind = .folder

theorem perm_sorted : (sorted out).Perm out := List.perm_insertionSort _ out

theorem mem_sorted : x ∈ sorted out ↔ x ∈ out := List.mem_insertionSort _

theorem pairwise_sorted (out : List (TreeEntry F)) : (sorted out).Pairwise fun a b => depth a ≤ depth b := by
  have htotal : Std.Total fun a b : TreeEntry F => depth a ≤ depth b := ⟨fun a b => le_total (depth a) (depth b)⟩
  have htrans : IsTrans (TreeEntry F) fun a b => depth a ≤ depth b := ⟨fun _ _ _ => le_trans⟩
  exact List.pairwise_insertionSort _ out

section

variable (h : Accepts nfc entries)

include h

theorem split_take (hentry : entry ∈ entries) {i : ℕ} (hi : 0 < i) :
    split (join ((names nfc entry).take i)) = (names nfc entry).take i := by
  refine split_join ?_ fun name hname => (h.parses entry hentry).valid name (List.mem_of_mem_take hname)
  rw [Ne, List.take_eq_nil_iff, not_or]
  exact ⟨hi.ne', names_ne_nil⟩

theorem split_names (hentry : entry ∈ entries) : split (join (names nfc entry)) = names nfc entry :=
  split_join names_ne_nil (h.parses entry hentry).valid

/-- The path of a node, as some names of an entry. -/
theorem exists_of_mem (hx : x ∈ build (allVisits nfc entries)) :
    ∃ entry ∈ entries, ∃ i, 0 < i ∧ i ≤ (names nfc entry).length ∧ x.path = join ((names nfc entry).take i) ∧
      split x.path = (names nfc entry).take i := by
  obtain ⟨v, hv, rfl⟩ := exists_of_mem_build hx
  obtain ⟨entry, hentry, hvisit⟩ := mem_allVisits.mp hv
  obtain ⟨i, hpos, hle, hpath⟩ := path_visits hvisit
  exact ⟨entry, hentry, i, hpos, hle, hpath, by rw [hpath, split_take h hentry hpos]⟩

theorem path_ne_nil (hx : x ∈ build (allVisits nfc entries)) : x.path ≠ [] := by
  intro hnil
  obtain ⟨entry, hentry, i, -, -, -, hsplit⟩ := exists_of_mem h hx
  have hfirst : split x.path = [[]] := by
    rw [hnil]
    rfl
  have hmem : ([] : JsString) ∈ split x.path := hfirst ▸ List.mem_singleton_self _
  rw [hsplit] at hmem
  exact valid_ne_nil ((h.parses entry hentry).valid _ (List.mem_of_mem_take hmem)) rfl

/-- A folder of a node is a node. -/
theorem exists_parent (hx : x ∈ build (allVisits nfc entries)) {i : ℕ} (hi : 0 < i) (hlt : i < depth x) :
    ∃ y ∈ build (allVisits nfc entries), y.path = join ((split x.path).take i) ∧ y.kind = .folder ∧ depth y = i := by
  obtain ⟨entry, hentry, j, hpos, hle, hpath, hsplit⟩ := exists_of_mem h hx
  unfold depth at hlt
  have htake : (split x.path).take i = (names nfc entry).take i := by
    rw [hsplit, List.length_take] at hlt
    rw [hsplit, List.take_take, min_eq_left (by omega)]
  rw [hsplit, List.length_take] at hlt
  have hvisit : (⟨join ((split entry.path).take i), ⟨join ((names nfc entry).take i), .folder, none⟩⟩ : Visit F) ∈
      allVisits nfc entries :=
    mem_allVisits.mpr ⟨entry, hentry, mem_visits.mpr (.inl ⟨i, hi, by omega, rfl⟩)⟩
  obtain ⟨y, hy, hypath⟩ := List.mem_map.mp (mem_paths_build.mpr (List.mem_map_of_mem hvisit))
  obtain ⟨w, hw, rfl⟩ := exists_of_mem_build hy
  refine ⟨w.node, hy, by rw [hypath, htake], h.valid.kind_eq hw hvisit hypath, ?_⟩
  unfold depth
  rw [hypath]
  dsimp only
  rw [split_take h hentry hi, List.length_take]
  omega

end

/-- **The tree of accepted entries can be made.** -/
theorem creatable_manifest (h : manifest nfc entries = .ok out) : Creatable out := by
  obtain ⟨haccepts, rfl⟩ := manifest_eq_ok.mp h
  refine ⟨fun x hx => path_ne_nil haccepts (mem_sorted.mp hx), ((perm_sorted.map _).nodup_iff).mpr nodup_build,
    fun pre x post hout i hi hlt => ?_⟩
  have hx : x ∈ build (allVisits nfc entries) := by
    rw [← mem_sorted, hout]
    exact List.mem_append_right _ List.mem_cons_self
  obtain ⟨y, hy, hpath, hkind, hdepth⟩ := exists_parent haccepts hx hi hlt
  have hsorted := pairwise_sorted (build (allVisits nfc entries))
  rw [hout] at hsorted
  rw [← mem_sorted, hout, List.mem_append, List.mem_cons] at hy
  rcases hy with hpre | rfl | hpost
  · exact ⟨y, hpre, hpath, hkind⟩
  · omega
  · have hle := List.rel_of_pairwise_cons (List.pairwise_append.mp hsorted).2.1 hpost
    omega

/-! ## The tree is accepted again -/

/-- No path is absolute once its names are normalized and trimmed. -/
def Relative (nfc : JsString → JsString) (entries : List (TreeEntry F)) : Prop :=
  ∀ entry ∈ entries, absolute (join (names nfc entry)) = false

/-- No folder that comes with a file has anything in it. -/
def Bare (nfc : JsString → JsString) (entries : List (TreeEntry F)) : Prop :=
  ∀ entry ∈ entries, entry.kind = .folder → entry.file ≠ none →
    ∀ other ∈ entries, names nfc entry <+: names nfc other → names nfc other = names nfc entry

/-- A path is absolute by its first two units. -/
theorem absolute_of_prefixed {s t : JsString} (hne : s ≠ []) (hst : s <+: t) (h : absolute s = true) : absolute t = true := by
  obtain ⟨rest, rfl⟩ := hst
  cases s with
  | nil => exact absurd rfl hne
  | cons c s =>
    cases s with
    | nil =>
      unfold absolute at h ⊢
      simp at h ⊢
      exact .inl h
    | cons d s =>
      unfold absolute at h ⊢
      simpa using h

section

variable (hnfc : ∀ s, nfc (trim (nfc s)) = trim (nfc s)) (h : Accepts nfc entries)

include hnfc h

/-- The names of a node are normalized and trimmed. -/
theorem names_node (hx : x ∈ build (allVisits nfc entries)) : names nfc x = split x.path := by
  obtain ⟨entry, hentry, i, hpos, hle, -, hsplit⟩ := exists_of_mem h hx
  have hstable : ∀ name ∈ names nfc entry, trim (nfc name) = name := by
    intro name hname
    obtain ⟨part, -, rfl⟩ := List.mem_map.mp hname
    rw [hnfc, trim_trim]
  unfold names
  rw [hsplit]
  exact (List.map_congr_left fun name hname => hstable name (List.mem_of_mem_take hname)).trans (List.map_id' _)

theorem parses_node (hrelative : Relative nfc entries) (hx : x ∈ build (allVisits nfc entries)) : Parses nfc x := by
  have hnames := names_node hnfc h hx
  obtain ⟨entry, hentry, i, hpos, hle, hpath, hsplit⟩ := exists_of_mem h hx
  have hparses := h.parses entry hentry
  refine ⟨Bool.eq_false_iff.mpr fun habsolute => ?_, fun name hname => ?_, ?_, ?_⟩
  · refine Bool.eq_false_iff.mp (hrelative entry hentry) (absolute_of_prefixed (path_ne_nil h hx) ?_ habsolute)
    rw [hpath]
    by_cases hrest : (names nfc entry).drop i = []
    · rw [List.take_of_length_le (List.drop_eq_nil_iff.mp hrest)]
    · have htake : (names nfc entry).take i ≠ [] := by
        rw [Ne, List.take_eq_nil_iff, not_or]
        exact ⟨hpos.ne', names_ne_nil⟩
      conv_rhs => rw [← List.take_append_drop i (names nfc entry), join_append htake hrest]
      exact List.prefix_append _ _
  · rw [hnames, hsplit] at hname
    exact hparses.valid name (List.mem_of_mem_take hname)
  · rw [hnames, hsplit, List.length_take]
    exact (min_le_right _ _).trans hparses.depth
  · rw [hnames, join_split, hpath]
    exact (byteLength_join_take hpos).trans hparses.bytes

end

/-- A list of nodes that can be made, each with the names it is written with. -/
structure Stable (nfc : JsString → JsString) (out : List (TreeEntry F)) : Prop where
  creatable : Creatable out
  names : ∀ x ∈ out, names nfc x = split x.path
  bare : ∀ x ∈ out, ∀ y ∈ out, y.file ≠ none → ∀ i, 0 < i → i < depth x → y.path ≠ join ((split x.path).take i)

theorem Stable.visits (h : Stable nfc out) (hx : x ∈ out) : visits x (Manifest.names nfc x) =
    ((List.range (depth x - 1)).map fun i =>
      ⟨join ((split x.path).take (i + 1)), ⟨join ((split x.path).take (i + 1)), .folder, none⟩⟩) ++ [⟨x.path, x⟩] := by
  have hpath : ({ x with path := join (split x.path) } : TreeEntry F) = x := by rw [join_split]
  rw [visits_eq names_ne_nil, h.names x hx, List.take_length, join_split]
  rfl

theorem Stable.of_append {pre post : List (TreeEntry F)} (h : Stable nfc (pre ++ post)) : Stable nfc pre where
  creatable :=
    { named := fun x hx => h.creatable.named x (List.mem_append_left _ hx)
      distinct := (List.nodup_append.mp (List.map_append ▸ h.creatable.distinct)).1
      parents := fun p x q hpre => by
        refine h.creatable.parents p x (q ++ post) ?_
        rw [hpre, List.append_assoc, List.cons_append] }
  names x hx := h.names x (List.mem_append_left _ hx)
  bare x hx y hy := h.bare x (List.mem_append_left _ hx) y (List.mem_append_left _ hy)

/-- **The tree is built again.** -/
theorem Stable.build_eq (h : Stable nfc out) : build (allVisits nfc out) = out := by
  induction out using List.reverseRecOn with
  | nil => rfl
  | append_singleton pre x ih =>
    have hpre := h.of_append
    have hx : x ∈ pre ++ [x] := List.mem_append_right _ (List.mem_singleton_self x)
    have hall : allVisits nfc (pre ++ [x]) = allVisits nfc pre ++ Manifest.visits x (Manifest.names nfc x) := by
      unfold allVisits
      rw [List.flatMap_append, List.flatMap_singleton]
    have hfolders : ∀ is : List ℕ, (∀ i ∈ is, i + 1 < depth x) →
        (is.map fun i => (⟨join ((split x.path).take (i + 1)), ⟨join ((split x.path).take (i + 1)), .folder, none⟩⟩ : Visit F)).foldl
          (fun nodes v => put nodes v.node) pre = pre := by
      intro is his
      induction is with
      | nil => rfl
      | cons i is ih =>
        obtain ⟨y, hy, hpath, hkind⟩ := h.creatable.parents pre x [] rfl (i + 1) (Nat.succ_pos i) (his i List.mem_cons_self)
        have hfile : y.file = none := by
          by_contra hfile
          exact h.bare x hx y (List.mem_append_left _ hy) hfile (i + 1) (Nat.succ_pos i) (his i List.mem_cons_self) hpath
        have hnode : (⟨join ((split x.path).take (i + 1)), .folder, none⟩ : TreeEntry F) = y := by
          rw [← hpath, ← hkind, ← hfile]
        rw [List.map_cons, List.foldl_cons]
        dsimp only
        rw [hnode, put_of_mem hpre.creatable.distinct hy]
        exact ih fun j hj => his j (List.mem_cons_of_mem i hj)
    have hnew : x.path ∉ pre.map (·.path) := by
      have hnodup := h.creatable.distinct
      rw [List.map_append, List.nodup_append] at hnodup
      exact fun hmem => hnodup.2.2 _ hmem _ (List.mem_singleton_self _) rfl
    unfold build at ih ⊢
    rw [hall, List.foldl_append, ih hpre, h.visits hx, List.foldl_append,
      hfolders _ fun i hi => by rw [List.mem_range] at hi; omega, List.foldl_cons, List.foldl_nil]
    unfold put
    rw [if_neg hnew]

/-- What is added for a node is a node, as it is written. -/
theorem Stable.node_mem (h : Stable nfc out) {v : Visit F} (hv : v ∈ allVisits nfc out) :
    v.node ∈ out ∧ v.raw = v.node.path := by
  obtain ⟨x, hx, hvisit⟩ := mem_allVisits.mp hv
  rw [h.visits hx, List.mem_append, List.mem_singleton, List.mem_map] at hvisit
  rcases hvisit with ⟨i, hi, rfl⟩ | rfl
  · rw [List.mem_range] at hi
    obtain ⟨pre, post, hout⟩ := List.append_of_mem hx
    obtain ⟨y, hy, hpath, hkind⟩ := h.creatable.parents pre x post hout (i + 1) (Nat.succ_pos i) (by omega)
    have hyout : y ∈ out := hout ▸ List.mem_append_left _ hy
    have hfile : y.file = none := by
      by_contra hfile
      exact h.bare x hx y hyout hfile (i + 1) (Nat.succ_pos i) (by omega) hpath
    have hnode : (⟨join ((split x.path).take (i + 1)), .folder, none⟩ : TreeEntry F) = y := by rw [← hpath, ← hkind, ← hfile]
    exact ⟨hnode ▸ hyout, rfl⟩
  · exact ⟨hx, rfl⟩

/-- A file has its key alone. -/
theorem Stable.apart (h : Stable nfc out) : (allVisits nfc out).Pairwise fun v v' =>
    v.node.path = v'.node.path → v.node.kind = .folder ∧ v'.node.kind = .folder := by
  induction out using List.reverseRecOn with
  | nil => exact .nil
  | append_singleton pre x ih =>
    have hpre := h.of_append
    have hx : x ∈ pre ++ [x] := List.mem_append_right _ (List.mem_singleton_self x)
    have hall : allVisits nfc (pre ++ [x]) = allVisits nfc pre ++ Manifest.visits x (Manifest.names nfc x) := by
      unfold allVisits
      rw [List.flatMap_append, List.flatMap_singleton]
    have hsame : ∀ v ∈ allVisits nfc (pre ++ [x]), ∀ v' ∈ allVisits nfc (pre ++ [x]), v.node.path = v'.node.path →
        v'.node.kind = .folder → v.node.kind = .folder ∧ v'.node.kind = .folder := by
      intro v hv v' hv' heq hkind
      have hnode := List.inj_on_of_nodup_map h.creatable.distinct (h.node_mem hv).1 (h.node_mem hv').1 heq
      exact ⟨hnode ▸ hkind, hkind⟩
    have hnew : ∀ y ∈ pre, y.path ≠ x.path := by
      have hnodup := h.creatable.distinct
      rw [List.map_append, List.nodup_append] at hnodup
      exact fun y hy => hnodup.2.2 _ (List.mem_map_of_mem hy) _ (List.mem_singleton_self _)
    rw [hall, h.visits hx] at hsame ⊢
    refine List.pairwise_append.mpr ⟨ih hpre, List.pairwise_append.mpr ⟨?_, List.pairwise_singleton _ _, ?_⟩, ?_⟩
    · refine List.pairwise_map.mpr (List.pairwise_of_forall fun i j _ => ⟨rfl, rfl⟩)
    · intro v hv v' hv' heq
      rw [List.mem_singleton.mp hv'] at heq
      obtain ⟨i, hi, rfl⟩ := List.mem_map.mp hv
      rw [List.mem_range] at hi
      obtain ⟨y, hy, hpath, -⟩ := h.creatable.parents pre x [] rfl (i + 1) (Nat.succ_pos i) (by omega)
      exact absurd (hpath.trans heq) (hnew y hy)
    · intro v hv v' hv' heq
      rcases List.mem_append.mp hv' with hfolder | hlast
      · refine hsame v (List.mem_append_left _ hv) v' (List.mem_append_right _ hv') heq ?_
        obtain ⟨i, -, rfl⟩ := List.mem_map.mp hfolder
        rfl
      · rw [List.mem_singleton.mp hlast] at heq
        exact absurd heq (hnew _ (hpre.node_mem hv).1)

theorem Stable.accepts (h : Stable nfc out) (hparses : ∀ x ∈ out, Parses nfc x) (hfew : out.length ≤ MAX_ENTRIES) :
    Accepts nfc out where
  parses := hparses
  distinct := by
    have hpaths : (out.map fun x => join (Manifest.names nfc x)) = out.map (·.path) :=
      List.map_congr_left fun x hx => by rw [h.names x hx, join_split]
    rw [hpaths]
    exact h.creatable.distinct
  valid :=
    { agree := fun v hv v' hv' heq => by rw [(h.node_mem hv).2, (h.node_mem hv').2, heq]
      apart := h.apart
      few := by rw [← length_build, h.build_eq]; exact hfew }

/-- A node that comes with a file is that of an entry. -/
theorem exists_of_file (hy : y ∈ build (allVisits nfc entries)) (hfile : y.file ≠ none) :
    ∃ entry ∈ entries, y = { entry with path := join (names nfc entry) } := by
  obtain ⟨v, hv, rfl⟩ := exists_of_mem_build hy
  obtain ⟨entry, hentry, hvisit⟩ := mem_allVisits.mp hv
  rcases mem_visits.mp hvisit with ⟨i, -, -, rfl⟩ | rfl
  · exact absurd rfl hfile
  · exact ⟨entry, hentry, rfl⟩

section

variable (hnfc : ∀ s, nfc (trim (nfc s)) = trim (nfc s)) (h : Accepts nfc entries)

include hnfc h

theorem stable_manifest (hbare : Bare nfc entries) : Stable nfc (sorted (build (allVisits nfc entries))) where
  creatable := creatable_manifest (manifest_eq_ok.mpr ⟨h, rfl⟩)
  names x hx := names_node hnfc h (mem_sorted.mp hx)
  bare x hx y hy hfile i hi hlt hpath := by
    rw [mem_sorted] at hx hy
    obtain ⟨y', hy', hpath', hkind, -⟩ := exists_parent h hx hi hlt
    obtain rfl := List.inj_on_of_nodup_map nodup_build hy hy' (hpath.trans hpath'.symm)
    obtain ⟨entry, hentry, rfl⟩ := exists_of_file hy hfile
    obtain ⟨other, hother, j, hj, hle, -, hsplit⟩ := exists_of_mem h hx
    unfold depth at hlt
    rw [hsplit, List.length_take] at hlt
    have htake : names nfc entry = (names nfc other).take i := by
      have hsame : join (names nfc entry) = join ((names nfc other).take i) := by
        rw [hsplit, List.take_take, min_eq_left (by omega)] at hpath
        exact hpath
      rw [← split_names h hentry, hsame, split_take h hother hi]
    have hequal := hbare entry hentry hkind hfile other hother (htake ▸ List.take_prefix i _)
    have hlength := congrArg List.length (hequal.trans htake)
    rw [List.length_take] at hlength
    omega

/-- **The tree is accepted again, and stays as it is.** -/
theorem manifest_again (hrelative : Relative nfc entries) (hbare : Bare nfc entries) :
    manifest nfc (sorted (build (allVisits nfc entries))) = .ok (sorted (build (allVisits nfc entries))) := by
  have hstable := stable_manifest hnfc h hbare
  have hfew : (sorted (build (allVisits nfc entries))).length ≤ MAX_ENTRIES := by
    rw [perm_sorted.length_eq, length_build]
    exact h.valid.few
  refine manifest_eq_ok.mpr ⟨hstable.accepts (fun x hx => parses_node hnfc h hrelative (mem_sorted.mp hx)) hfew, ?_⟩
  rw [hstable.build_eq]
  exact ((pairwise_sorted (build (allVisits nfc entries))).insertionSort_eq).symm

end

/-! ## The order of the entries -/

theorem Accepts.perm {entries' : List (TreeEntry F)} (h : Accepts nfc entries) (hperm : entries.Perm entries') :
    Accepts nfc entries' where
  parses entry hentry := h.parses entry (hperm.mem_iff.mpr hentry)
  distinct := (hperm.map _).nodup_iff.mp h.distinct
  valid := h.valid.perm (hperm.flatMap_right _)

/-- One tree, or none. -/
def SameTree : Except Refusal (List (TreeEntry F)) → Except Refusal (List (TreeEntry F)) → Prop
  | .ok out, .ok out' => ∀ x, x ∈ out ↔ x ∈ out'
  | .error _, .error _ => True
  | _, _ => False

theorem manifest_cases (nfc : JsString → JsString) (entries : List (TreeEntry F)) :
    (Accepts nfc entries ∧ manifest nfc entries = .ok (sorted (build (allVisits nfc entries)))) ∨
      (¬Accepts nfc entries ∧ ∃ e, manifest nfc entries = .error e) := by
  by_cases h : Accepts nfc entries
  · exact .inl ⟨h, manifest_eq_ok.mpr ⟨h, rfl⟩⟩
  · refine .inr ⟨h, ?_⟩
    cases hmanifest : manifest nfc entries with
    | error e => exact ⟨e, rfl⟩
    | ok out => exact absurd (manifest_eq_ok.mp hmanifest).1 h

/-- Where no folder with a file has anything in it, what is added under one key is one node. -/
theorem node_eq (h : Accepts nfc entries) (hbare : Bare nfc entries) {v v' : Visit F} (hv : v ∈ allVisits nfc entries)
    (hv' : v' ∈ allVisits nfc entries) (heq : v.node.path = v'.node.path) : v.node = v'.node := by
  have hkind := h.valid.kind_eq hv hv' heq
  -- A folder of one entry and another entry of the same path.
  have hmixed : ∀ e ∈ entries, ∀ e' ∈ entries, ∀ i, 0 < i → i < (names nfc e').length →
      join (names nfc e) = join ((names nfc e').take i) → e.kind = .folder → e.file = none := by
    intro e he e' he' i hi hlt hpath hfolder
    by_contra hfile
    have htake : names nfc e = (names nfc e').take i := by
      rw [← split_names h he, hpath, split_take h he' hi]
    have hequal := hbare e he hfolder hfile e' he' (htake ▸ List.take_prefix i _)
    have hlength := congrArg List.length (hequal.trans htake)
    rw [List.length_take] at hlength
    omega
  obtain ⟨e, he, hvisit⟩ := mem_allVisits.mp hv
  obtain ⟨e', he', hvisit'⟩ := mem_allVisits.mp hv'
  rcases mem_visits.mp hvisit with ⟨i, hi, hlt, rfl⟩ | rfl <;> rcases mem_visits.mp hvisit' with ⟨j, hj, hlt', rfl⟩ | rfl
  · exact congrArg (fun path => (⟨path, .folder, none⟩ : TreeEntry F)) heq
  · have hfile := hmixed e' he' e he i hi hlt heq.symm hkind.symm
    dsimp only at heq hkind ⊢
    rw [heq, ← hkind, hfile]
  · have hfile := hmixed e he e' he' j hj hlt' heq hkind
    dsimp only at heq hkind ⊢
    rw [heq, hkind, hfile]
  · obtain rfl := List.inj_on_of_nodup_map h.distinct he he' heq
    rfl

/-- Then a node is whatever was added under its key. -/
theorem mem_build_iff (h : Accepts nfc entries) (hbare : Bare nfc entries) :
    x ∈ build (allVisits nfc entries) ↔ ∃ v ∈ allVisits nfc entries, v.node = x := by
  refine ⟨exists_of_mem_build, ?_⟩
  rintro ⟨v, hv, rfl⟩
  obtain ⟨y, hy, hpath⟩ := List.mem_map.mp (mem_paths_build.mpr (List.mem_map_of_mem hv))
  obtain ⟨w, hw, rfl⟩ := exists_of_mem_build hy
  rwa [← node_eq h hbare hw hv hpath]

theorem Bare.perm {entries' : List (TreeEntry F)} (h : Bare nfc entries) (hperm : entries.Perm entries') :
    Bare nfc entries' := fun e he hkind hfile e' he' =>
  h e (hperm.mem_iff.mpr he) hkind hfile e' (hperm.mem_iff.mpr he')

/-- **The order of the entries does not matter.** -/
theorem manifest_perm {entries' : List (TreeEntry F)} (hbare : Accepts nfc entries → Bare nfc entries)
    (hperm : entries.Perm entries') : SameTree (manifest nfc entries) (manifest nfc entries') := by
  rcases manifest_cases nfc entries with ⟨haccepts, hok⟩ | ⟨hnot, e, herror⟩
  · have haccepts' := haccepts.perm hperm
    have hbare' := (hbare haccepts).perm hperm
    rw [hok, manifest_eq_ok.mpr ⟨haccepts', rfl⟩]
    intro x
    rw [mem_sorted, mem_sorted, mem_build_iff haccepts (hbare haccepts), mem_build_iff haccepts' hbare']
    exact exists_congr fun v => and_congr_left' (hperm.flatMap_right _).mem_iff
  · rcases manifest_cases nfc entries' with ⟨haccepts', -⟩ | ⟨-, e', herror'⟩
    · exact absurd (haccepts'.perm hperm.symm) hnot
    · rw [herror, herror']
      trivial

/-- A key that is added later has the node that is added then. -/
theorem exists_of_mem_build_append {vs ws : List (Visit F)} (hx : x ∈ build (vs ++ ws))
    (hpath : x.path ∈ ws.map (·.node.path)) : ∃ w ∈ ws, w.node = x := by
  obtain ⟨pre, v, post, hsplit, hv, hpost⟩ := mem_build.mp hx
  obtain ⟨w, hw, hwpath⟩ := List.mem_map.mp hpath
  rcases List.append_eq_append_iff.mp hsplit with ⟨mid, -, hws⟩ | ⟨mid, -, hlast⟩
  · exact ⟨v, hws ▸ List.mem_append_right _ List.mem_cons_self, hv⟩
  · rcases List.cons_eq_append_iff.mp hlast with ⟨rfl, hws⟩ | ⟨rest, -, hpost'⟩
    · exact ⟨v, hws ▸ List.mem_cons_self, hv⟩
    · exact absurd hwpath (hpost w (hpost' ▸ List.mem_append_right _ hw))

/-- Where a folder with a file has something in it, the order decides which of its nodes counts. -/
theorem bare_of_perm (h : Accepts nfc entries)
    (horder : ∀ entries', entries.Perm entries' → SameTree (manifest nfc entries) (manifest nfc entries')) :
    Bare nfc entries := by
  intro e he hkind hfile e' he' hbelow
  by_contra hne
  obtain ⟨pre, post, rfl⟩ := List.append_of_mem he
  have hother : e' ∈ pre ++ post := by
    rcases List.mem_append.mp he' with hpre | hpost
    · exact List.mem_append_left _ hpre
    · rcases List.mem_cons.mp hpost with rfl | hpost
      · exact absurd rfl hne
      · exact List.mem_append_right _ hpost
  -- The folder as the last of the entries, then as the first of them.
  have hlast : (pre ++ e :: post).Perm ((pre ++ post) ++ [e]) :=
    List.perm_middle.trans (List.perm_append_singleton e (pre ++ post)).symm
  have hfirst : (pre ++ e :: post).Perm ([e] ++ (pre ++ post)) := List.perm_middle
  have hsame := horder _ hlast
  have hsame' := horder _ hfirst
  rw [manifest_eq_ok.mpr ⟨h, rfl⟩, manifest_eq_ok.mpr ⟨h.perm hlast, rfl⟩] at hsame
  rw [manifest_eq_ok.mpr ⟨h, rfl⟩, manifest_eq_ok.mpr ⟨h.perm hfirst, rfl⟩] at hsame'
  have hnode : ({ e with path := join (names nfc e) } : TreeEntry F) ∈ build (allVisits nfc ((pre ++ post) ++ [e])) := by
    have hall : allVisits nfc ((pre ++ post) ++ [e]) = (allVisits nfc (pre ++ post) ++
        (visits e (names nfc e)).dropLast) ++ [⟨e.path, { e with path := join (names nfc e) }⟩] := by
      unfold allVisits
      rw [List.flatMap_append, List.flatMap_singleton, visits_eq names_ne_nil, List.dropLast_concat, length_names,
        List.take_length, join_split, List.append_assoc]
    rw [hall, build_append]
    exact mem_put.mpr (.inl rfl)
  have hagain : ({ e with path := join (names nfc e) } : TreeEntry F) ∈ build (allVisits nfc ([e] ++ (pre ++ post))) := by
    rw [← mem_sorted, ← hsame' _, hsame _, mem_sorted]
    exact hnode
  unfold allVisits at hagain
  rw [List.flatMap_append] at hagain
  have hlength : (names nfc e).length < (names nfc e').length := by
    refine lt_of_le_of_ne hbelow.length_le fun hlength => hne ?_
    exact (hbelow.eq_of_length hlength).symm
  have hkey : join (names nfc e) ∈ ((pre ++ post).flatMap fun entry => visits entry (names nfc entry)).map (·.node.path) := by
    refine List.mem_map.mpr ⟨_, List.mem_flatMap.mpr ⟨e', hother, mem_visits.mpr
      (.inl ⟨(names nfc e).length, List.length_pos_iff.mpr names_ne_nil, hlength, rfl⟩)⟩, ?_⟩
    dsimp only
    rw [← List.prefix_iff_eq_take.mp hbelow]
  obtain ⟨w, hw, hwnode⟩ := exists_of_mem_build_append hagain hkey
  obtain ⟨e'', he'', hvisit⟩ := List.mem_flatMap.mp hw
  rcases mem_visits.mp hvisit with ⟨i, -, -, rfl⟩ | rfl
  · exact hfile (congrArg TreeEntry.file hwnode).symm
  · have hjoin : join (names nfc e'') = join (names nfc e) := congrArg TreeEntry.path hwnode
    have hdistinct := (List.perm_middle.map fun entry => join (names nfc entry)).nodup_iff.mp h.distinct
    rw [List.map_cons, List.nodup_cons] at hdistinct
    exact hdistinct.1 (hjoin ▸ List.mem_map_of_mem (f := fun entry => join (names nfc entry)) he'')

/-- A tree that is accepted again has no path that looks absolute. -/
theorem relative_of_again
    (hagain : Accepts nfc (sorted (build (allVisits nfc entries)))) : Relative nfc entries := by
  intro entry hentry
  have hvisit : (⟨entry.path, { entry with path := join (names nfc entry) }⟩ : Visit F) ∈ allVisits nfc entries :=
    mem_allVisits.mpr ⟨entry, hentry, mem_visits.mpr (.inr rfl)⟩
  obtain ⟨y, hy, hpath⟩ := List.mem_map.mp (mem_paths_build.mpr (List.mem_map_of_mem hvisit))
  dsimp only at hpath
  rw [← hpath]
  exact (hagain.parses y (mem_sorted.mpr hy)).relative

end Manifest

end HomeCloud
