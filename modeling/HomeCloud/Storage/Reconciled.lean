import HomeCloud.Files.NumberedNames
import HomeCloud.Storage.Reconcile
import HomeCloud.Storage.Stored

/-!
# What the check after a restore finds

* `Consistent`: the states of the backend; `Discrepancy`: what may be different.
* `Legible`: the rows and the listing are read as they are.
* `listStorageFiles_eq`, `listStorageFiles_eq_none`: the listing, and when it fails.
* `parseRecord_recordLine`: what is read of a row.
* **`reconcile_iff`**: when the report is empty, and when it names the difference.
-/

namespace HomeCloud

namespace Reconcile

open Storage Python

/-! ## The states -/

/-- The areas of the storage that hold no objects of files. -/
def Temporary (key : JsString) : Prop :=
  ascii ".tmp/" <+: key ∨ ascii ".restore-" <+: key ∨
    Unbroken key ∧ (key = ascii ".homecloud-storage-identity" ∨ ascii ".hc-probe-" <+: key)

/-- The bytes of a user's ordinary files, in the trash or not. -/
def usage (s : State) (userId : ℕ) : ℕ :=
  ((s.files.filter fun row => row.userId = userId && !row.isFolder).map (·.size)).sum

/-- A state of the backend in which the rows, the objects and the counters agree. The root is a path that `clean_path`
admits. -/
structure Consistent (low : LowerCase) (s : State) : Prop where
  root : s.target.head? = some 0x2F
  carriage : 0x0D ∉ s.target
  users : (s.users.map (·.id)).Nodup
  objects : (s.objects.map (·.1)).Nodup
  distinct : ((s.files.filter fun row => !row.isFolder).map (·.relativeObjectKey)).Nodup
  owned : ∀ row ∈ s.files, ∃ user ∈ s.users, user.id = row.userId
  placed : ∀ row ∈ s.files, row.isFolder = false → ∃ key, row.relativeObjectKey = some key ∧ Stored low key ∧
    row.legacyLocation = true ∧ row.storagePath = some (fullPath s.target key) ∧ (key, row.size) ∈ s.objects
  held : ∀ object ∈ s.objects, Temporary object.1 ∨
    ∃ row ∈ s.files, row.isFolder = false ∧ row.relativeObjectKey = some object.1
  counted : ∀ user ∈ s.users, user.storageUsed = usage s user.id

/-- One difference from such a state: an object of a file is not there or has another size, there is an object of no
file, or a counter is another one. -/
inductive Discrepancy where
  | missing (key : JsString) (user size : ℕ)
  | extra (key : JsString) (size : ℕ)
  | wrongSize (key : JsString) (size actual : ℕ)
  | usage (user actual reported : ℕ)

namespace Discrepancy

def Applies (s : State) : Discrepancy → Prop
  | missing key user size =>
    ∃ row ∈ s.files, row.isFolder = false ∧ row.relativeObjectKey = some key ∧ row.userId = user ∧ row.size = size
  | extra key _ => ¬Temporary key ∧ ∀ object ∈ s.objects, object.1 ≠ key
  | wrongSize key size actual =>
    actual ≠ size ∧ ∃ row ∈ s.files, row.isFolder = false ∧ row.relativeObjectKey = some key ∧ row.size = size
  | usage user actual reported => reported ≠ actual ∧ ⟨user, actual⟩ ∈ s.users

def apply (s : State) : Discrepancy → State
  | missing key _ _ => { s with objects := s.objects.filter fun object => object.1 ≠ key }
  | extra key size => { s with objects := (key, size) :: s.objects }
  | wrongSize key _ actual =>
    { s with objects := s.objects.map fun object => if object.1 = key then (key, actual) else object }
  | usage user _ reported =>
    { s with users := s.users.map fun row => if row.id = user then { row with storageUsed := reported } else row }

/-- The line of the report about it. -/
def line : Discrepancy → Line
  | missing key user size => .dangling key user size
  | extra key size => .orphan key size
  | wrongSize key size actual => .sizeMismatch key size actual
  | usage user actual reported => .usageDrift (decimal user) actual reported

/-- The listing shows its object, on a line of its own. -/
def Seen (s : State) : Discrepancy → Prop
  | missing key _ _ => found s.target key = true
  | extra key _ => found s.target key = true ∧ validateStoragePath key = true ∧ Unbroken (fullPath s.target key)
  | wrongSize key _ _ => found s.target key = true
  | usage .. => True

end Discrepancy

/-- The script reads what is there: no path is split into lines, the files that are not in the trash have keys
without `|` that the listing shows, and in the trash there are at most empty files that it does not show. -/
structure Legible (s : State) : Prop where
  unbroken : ∀ object ∈ s.objects, found s.target object.1 = true → Unbroken (fullPath s.target object.1)
  live : ∀ row ∈ s.files, row.isFolder = false → row.isDeleted = false → ∀ key, row.relativeObjectKey = some key →
    0x7C ∉ key ∧ found s.target key = true
  trash : ∀ row ∈ s.files, row.isFolder = false → row.isDeleted = true → row.size = 0 ∧
    ∀ key, row.relativeObjectKey = some key → found s.target key = false

/-- The report names the difference. -/
def Reports (py : Python) (s : State) (d : Discrepancy) : Prop := ∃ lines, main py s = some lines ∧ d.line ∈ lines

/-! ## Lists -/

section Lists

variable {α β γ : Type}

theorem mapM_map {f : α → β} {g : β → Option γ} {h : α → γ} {l : List α} (hl : ∀ x ∈ l, g (f x) = some (h x)) :
    (l.map f).mapM g = some (l.map h) := by
  induction l with
  | nil => rfl
  | cons x l ih =>
    rw [List.map_cons, List.mapM_cons, hl x List.mem_cons_self, ih fun y hy => hl y (List.mem_cons_of_mem x hy)]
    rfl

theorem mapM_eq_none {g : β → Option γ} {l : List β} {x : β} (hx : x ∈ l) (hg : g x = none) : l.mapM g = none := by
  induction l with
  | nil => cases hx
  | cons y l ih =>
    rw [List.mapM_cons]
    rcases List.mem_cons.mp hx with rfl | hx
    · rw [hg]
      rfl
    · rw [ih hx]
      cases g y <;> rfl

theorem mem_of_mapM {g : β → Option γ} {l : List β} {l' : List γ} (h : l.mapM g = some l') {y : γ} (hy : y ∈ l') :
    ∃ x ∈ l, g x = some y := by
  induction l generalizing l' with
  | nil =>
    cases h
    cases hy
  | cons x l ih =>
    rw [List.mapM_cons] at h
    obtain ⟨z, hz, h⟩ := Option.bind_eq_some_iff.mp h
    obtain ⟨rest, hrest, h⟩ := Option.bind_eq_some_iff.mp h
    cases h
    rcases List.mem_cons.mp hy with rfl | hy
    · exact ⟨x, List.mem_cons_self, hz⟩
    · obtain ⟨x', hx', hy'⟩ := ih hrest hy
      exact ⟨x', List.mem_cons_of_mem x hx', hy'⟩

theorem filterMap_ite {p : α → Bool} {f : α → β} (l : List α) :
    (l.filterMap fun x => if p x then some (f x) else none) = (l.filter p).map f := by
  induction l with
  | nil => rfl
  | cons x l ih => cases hx : p x <;> simp [hx, ih]

/-- One element of a list makes a line. -/
theorem filterMap_eq_singleton {f : α → Option β} {l : List α} {a : α} {b : β} (hl : l.Nodup) (ha : a ∈ l)
    (hb : f a = some b) (hother : ∀ a' ∈ l, a' ≠ a → f a' = none) : l.filterMap f = [b] := by
  obtain ⟨l₁, l₂, rfl⟩ := List.append_of_mem ha
  have hdisjoint := List.nodup_append.mp hl
  have h₁ : l₁.filterMap f = [] := List.filterMap_eq_nil_iff.mpr fun a' ha' =>
    hother a' (List.mem_append_left _ ha') (hdisjoint.2.2 a' ha' a List.mem_cons_self)
  have h₂ : l₂.filterMap f = [] := List.filterMap_eq_nil_iff.mpr fun a' ha' =>
    hother a' (List.mem_append_right _ (List.mem_cons_of_mem a ha')) fun heq =>
      (List.nodup_cons.mp hdisjoint.2.1).1 (heq ▸ ha')
  rw [List.filterMap_append, List.filterMap_cons_some hb, h₁, h₂, List.nil_append]

/-- What follows a unit that is not in the first part lies in the second one. -/
theorem suffix_of_append {a b x s : JsString} {c : UInt16} (h : x ++ s = a ++ c :: b) (hc : c ∉ x) : c :: b <:+ s := by
  rcases List.append_eq_append_iff.mp h with ⟨d, -, hs⟩ | ⟨d, hx, hs⟩
  · exact ⟨d, hs.symm⟩
  · cases d with
    | nil => exact ⟨[], hs⟩
    | cons e d =>
      rw [List.cons_append, List.cons.injEq] at hs
      exact absurd (hx ▸ List.mem_append_right a (hs.1 ▸ List.mem_cons_self)) hc

/-- A pattern with a slash and without the unit lies in front of the unit, if no slash follows it. -/
theorem infix_of_append {pattern a b : JsString} {c : UInt16} (h : pattern <:+: a ++ c :: b) (hc : c ∉ pattern)
    (hslash : 0x2F ∈ pattern) (hb : 0x2F ∉ c :: b) : pattern <:+: a := by
  obtain ⟨s, t, h⟩ := h
  rcases List.append_eq_append_iff.mp h with ⟨d, ha, -⟩ | ⟨d, hd, ht⟩
  · exact ⟨s, d, ha.symm⟩
  · cases d with
    | nil => exact ⟨s, [], by rw [hd, List.append_nil, List.append_nil]⟩
    | cons e d =>
      rw [List.cons_append, List.cons.injEq] at ht
      obtain ⟨rfl, rfl⟩ := ht
      rcases List.append_eq_append_iff.mp hd with ⟨d', -, hpattern⟩ | ⟨d', -, hpattern⟩
      · exact absurd (hpattern ▸ List.mem_append_right d' List.mem_cons_self) hc
      · have hmem : (0x2F : UInt16) ∈ c :: d := hpattern ▸ List.mem_append_right d' hslash
        exact absurd (List.mem_append_left t hmem) hb

end Lists

/-! ## The listing -/

section Listing

variable {py : Python} {s : State} {target key : JsString}

theorem isPrefixOf_headD_splitOn {a rest : JsString} (h : 0x2F ∉ a) :
    a.isPrefixOf (((a ++ rest).splitOn 0x2F).headD []) = true := by
  by_cases hrest : (0x2F : UInt16) ∈ rest
  · obtain ⟨b, c, rfl, hb⟩ := List.eq_append_cons_of_mem hrest
    have hfirst : (0x2F : UInt16) ∉ a ++ b := fun hmem => (List.mem_append.mp hmem).elim h hb
    rw [← List.append_assoc, List.splitOn_append_cons_self, List.splitOn_eq_singleton hfirst]
    exact List.isPrefixOf_iff_prefix.mpr ⟨b, rfl⟩
  · have hall : (0x2F : UInt16) ∉ a ++ rest := fun hmem => (List.mem_append.mp hmem).elim h hrest
    rw [List.splitOn_eq_singleton hall]
    exact List.isPrefixOf_iff_prefix.mpr ⟨rest, rfl⟩

theorem not_found (h : ascii ".tmp/" <+: key ∨ ascii ".restore-" <+: key) : found target key = false := by
  rcases h with ⟨rest, rfl⟩ | ⟨rest, rfl⟩
  · have hslash : ascii "/.tmp/" = 0x2F :: ascii ".tmp/" := by decide
    have hinfix : ascii "/.tmp/" <:+: fullPath target (ascii ".tmp/" ++ rest) :=
      ⟨target, rest, by rw [hslash, fullPath, List.append_assoc, List.cons_append]⟩
    rw [found, decide_eq_true hinfix, Bool.not_true, Bool.false_and]
  · have hslash : ascii "/.restore-" = 0x2F :: ascii ".restore-" := by decide
    have hinfix : ascii "/.restore-" <:+: fullPath target (ascii ".restore-" ++ rest) :=
      ⟨target, rest, by rw [hslash, fullPath, List.append_assoc, List.cons_append]⟩
    rw [found, decide_eq_true hinfix, Bool.not_true, Bool.and_false]

/-- What is in the temporary areas and listed is not taken for an object. -/
theorem Temporary.not_valid (h : Temporary key) (hfound : found target key = true) :
    Unbroken key ∧ validateStoragePath key = false := by
  have hhidden (h : ascii ".tmp/" <+: key ∨ ascii ".restore-" <+: key) : False := by
    rw [not_found h] at hfound
    cases hfound
  rcases h with h | h | ⟨hunbroken, rfl | ⟨rest, rfl⟩⟩
  · exact (hhidden (.inl h)).elim
  · exact (hhidden (.inr h)).elim
  · exact ⟨hunbroken, by decide⟩
  · have hprobe : (ascii ".hc-probe-").isPrefixOf (((ascii ".hc-probe-" ++ rest).splitOn 0x2F).headD []) = true :=
      isPrefixOf_headD_splitOn (by decide)
    refine ⟨hunbroken, ?_⟩
    simp only [validateStoragePath, hprobe, Bool.or_true, Bool.true_or, Bool.not_true]

/-- The files that the listing has and that are taken for objects. -/
def visible (s : State) : List (JsString × ℕ) :=
  (s.objects.filter fun object => found s.target object.1).filter fun object => validateStoragePath object.1

theorem mem_visible {object : JsString × ℕ} :
    object ∈ visible s ↔ object ∈ s.objects ∧ found s.target object.1 = true ∧ validateStoragePath object.1 = true := by
  rw [visible, List.mem_filter, List.mem_filter, and_assoc]

theorem parseStat_statLine (hroot : target.head? = some 0x2F) (n : ℕ) :
    parseStat py target (statLine target (key, n)) =
      some (if validateStoragePath key then some (key, (n : ℤ)) else none) := by
  have hsplit : split1 (statLine target (key, n)) = [decimal n, fullPath target key] := by
    cases target with
    | nil => cases hroot
    | cons c rest =>
      cases hroot
      exact split1_decimal n rfl _
  have hprefix : (target ++ [0x2F]).isPrefixOf (fullPath target key) = true :=
    List.isPrefixOf_iff_prefix.mpr ⟨key, by rw [fullPath, List.append_assoc, List.singleton_append]⟩
  have hdrop : (fullPath target key).drop (target.length + 1) = key := by
    rw [fullPath, ← List.drop_drop, List.drop_left, List.drop_one, List.tail_cons]
  unfold parseStat
  rw [hsplit]
  dsimp only
  rw [if_pos hprefix, hdrop, py.int_decimal]
  cases validateStoragePath key with
  | true => simp
  | false => rfl

theorem unbroken_statLine (h : Unbroken (fullPath target key)) (n : ℕ) : Unbroken (statLine target (key, n)) := by
  intro c hc
  rcases List.mem_append.mp hc with hc | hc
  · exact isLineBreak_decimal hc
  · rcases List.mem_cons.mp hc with rfl | hc
    · rfl
    · exact h c hc

/-- **The listing**, if its lines are those that were printed. -/
theorem listStorageFiles_eq (hroot : s.target.head? = some 0x2F)
    (h : ∀ object ∈ s.objects, found s.target object.1 = true → Unbroken (fullPath s.target object.1)) :
    listStorageFiles py s = some ((visible s).map fun object => (object.1, (object.2 : ℤ))) := by
  have hlines : ∀ l ∈ (s.objects.filter fun object => found s.target object.1).map (statLine s.target), Unbroken l := by
    intro l hl
    obtain ⟨object, hobject, rfl⟩ := List.mem_map.mp hl
    obtain ⟨hmem, hfound⟩ := List.mem_filter.mp hobject
    exact unbroken_statLine (h object hmem hfound) object.2
  have hparse : ∀ object ∈ s.objects.filter fun object => found s.target object.1,
      parseStat py s.target (statLine s.target object) =
        some (if validateStoragePath object.1 then some (object.1, (object.2 : ℤ)) else none) :=
    fun object _ => parseStat_statLine hroot object.2
  unfold listStorageFiles
  dsimp only
  rw [splitlines_flatMap hlines, mapM_map hparse, Option.map_some, List.filterMap_map]
  exact congrArg some (filterMap_ite _)

/-- **A path with a line break** makes the listing fail. -/
theorem listStorageFiles_eq_none {object : JsString × ℕ} (hcarriage : 0x0D ∉ s.target) (hobject : object ∈ s.objects)
    (hfound : found s.target object.1 = true) (hbroken : ¬Unbroken (fullPath s.target object.1))
    (hkey : Unbroken object.1 ∨ Shape object.1) : listStorageFiles py s = none := by
  obtain ⟨a, b, l, hpath, hb, hl⟩ := exists_last_break hbroken
  have hreturn : b ≠ 0x0D := by
    rintro rfl
    have hmem : (0x0D : UInt16) ∈ fullPath s.target object.1 := hpath ▸ List.mem_append_right a List.mem_cons_self
    rcases List.mem_append.mp hmem with hmem | hmem
    · exact hcarriage hmem
    · rcases List.mem_cons.mp hmem with heq | hmem
      · exact absurd heq (by decide)
      · rcases hkey with hkey | hkey
        · exact absurd (hkey _ hmem) (by decide)
        · exact absurd (hkey.le _ hmem) (by decide)
  have hnone : parseStat py s.target l = none := by
    by_contra hsome
    unfold parseStat at hsome
    split at hsome
    · next sizeStr path hsplit =>
      split at hsome
      · next hprefix =>
        obtain ⟨rest, hrest⟩ := List.isPrefixOf_iff_prefix.mp hprefix
        have hsub : ∀ c ∈ path, c ∈ l := fun c hc => (suffix_of_split1 hsplit).subset hc
        have htarget : Unbroken (s.target ++ [0x2F]) := fun c hc => hl c (hsub c (hrest ▸ List.mem_append_left rest hc))
        have hslash : (0x2F : UInt16) ∈ l := hsub _ (hrest ▸ List.mem_append_left rest (by simp))
        rcases hkey with hkey | ⟨userId, name, heq, hname, -⟩
        · refine hbroken fun c hc => ?_
          rcases List.mem_append.mp hc with hc | hc
          · exact htarget c (List.mem_append_left _ hc)
          · rcases List.mem_cons.mp hc with rfl | hc
            · rfl
            · exact hkey c hc
        · -- The break lies in the name, and there is no slash after it.
          have hsplit' : (s.target ++ 0x2F :: (decimal userId ++ [0x2F])) ++ name = a ++ b :: l := by
            rw [← hpath, heq]
            simp [fullPath, objectKey]
          have hfree : b ∉ s.target ++ 0x2F :: (decimal userId ++ [0x2F]) := by
            intro hmem
            have hclean : isLineBreak b = false := by
              rcases List.mem_append.mp hmem with hmem | hmem
              · exact htarget b (List.mem_append_left _ hmem)
              · rcases List.mem_cons.mp hmem with rfl | hmem
                · rfl
                · rcases List.mem_append.mp hmem with hmem | hmem
                  · exact isLineBreak_decimal hmem
                  · rw [List.mem_singleton.mp hmem]
                    rfl
            rw [hb] at hclean
            cases hclean
          exact hname.slash ((suffix_of_append hsplit' hfree).subset (List.mem_cons_of_mem b hslash))
      · exact hsome rfl
    · exact hsome rfl
  obtain ⟨before, after, hlist⟩ : ∃ before after,
      (s.objects.filter fun object => found s.target object.1) = before ++ object :: after :=
    List.append_of_mem (List.mem_filter.mpr ⟨hobject, hfound⟩)
  have hmem : l ∈ splitlines (((s.objects.filter fun object => found s.target object.1).map (statLine s.target)).flatMap
      (· ++ [0x0A])) := by
    rw [hlist, List.map_append, List.map_cons, List.flatMap_append, List.flatMap_cons, statLine, hpath]
    have := mem_splitlines hb hreturn hl ((before.map (statLine s.target)).flatMap (· ++ [0x0A]) ++
      (decimal object.2 ++ 0x20 :: a)) ((after.map (statLine s.target)).flatMap (· ++ [0x0A]))
    simpa only [List.append_assoc, List.cons_append, List.nil_append] using this
  unfold listStorageFiles
  dsimp only
  rw [mapM_eq_none hmem hnone]
  rfl

/-- A path that was read has no line break. -/
theorem unbroken_of_mem {phys : List (JsString × ℤ)} (h : listStorageFiles py s = some phys) {n : ℤ}
    (hmem : (key, n) ∈ phys) : Unbroken (fullPath s.target key) := by
  unfold listStorageFiles at h
  obtain ⟨parsed, hparsed, rfl⟩ := Option.map_eq_some_iff.mp h
  obtain ⟨entry, hentry, rfl⟩ := List.mem_filterMap.mp hmem
  obtain ⟨l, hl, hread⟩ := mem_of_mapM hparsed hentry
  unfold parseStat at hread
  split at hread
  · next sizeStr path hsplit =>
    split at hread
    · next hprefix =>
      obtain ⟨rest, hrest⟩ := List.isPrefixOf_iff_prefix.mp hprefix
      have hdrop : path.drop (s.target.length + 1) = rest := by
        rw [← hrest, List.append_assoc, ← List.drop_drop, List.drop_left]
        rfl
      have hkey : path.drop (s.target.length + 1) = key := by
        dsimp only at hread
        split at hread
        · split at hread
          · split at hread
            · cases hread
            · cases hread
              rfl
          · cases hread
        · cases hread
      have hpath : fullPath s.target key = path := by
        rw [fullPath, ← hkey, hdrop, ← hrest, List.append_assoc, List.singleton_append]
      rw [hpath]
      exact fun c hc => unbroken_splitlines hl c ((suffix_of_split1 hsplit).subset hc)
    · cases hread
  · cases hread

end Listing

/-! ## The rows -/

section Rows

variable {py : Python} {key : JsString} {a b : ℕ}

/-- A row of three columns, as it is printed. -/
def recordLine (key : JsString) (a b : ℕ) : JsString := key ++ 0x7C :: (decimal a ++ 0x7C :: decimal b)

theorem not_mem_decimal_bar {n : ℕ} : (0x7C : UInt16) ∉ decimal n := fun h => absurd (mem_decimal h).2 (by decide)

theorem printed_recordLine (hfirst : ∃ c rest, key = c :: rest ∧ isSpace c = false) (hnewline : 0x0A ∉ key) :
    Printed (recordLine key a b) := by
  have hdigits {n : ℕ} : (0x0A : UInt16) ∉ decimal n := fun h => absurd (mem_decimal h).1 (by decide)
  refine ⟨?_, ?_, fun hmem => ?_⟩
  · obtain ⟨c, rest, rfl, hc⟩ := hfirst
    exact ⟨c, _, rfl, hc⟩
  · obtain ⟨front, c, hlast⟩ := (List.eq_nil_or_concat (decimal b)).resolve_left (component_decimal b).ne_nil
    have hc : isSpace c = false := isSpace_decimal (n := b) (hlast ▸ by simp)
    exact ⟨key ++ 0x7C :: (decimal a ++ 0x7C :: front), c, by simp [recordLine, hlast], hc⟩
  · simp only [recordLine, List.mem_append, List.mem_cons] at hmem
    rcases hmem with hmem | hmem | hmem | hmem | hmem
    · exact hnewline hmem
    · exact absurd hmem (by decide)
    · exact hdigits hmem
    · exact absurd hmem (by decide)
    · exact hdigits hmem

theorem splitOn_recordLine : (recordLine key a b).splitOn 0x7C = key.splitOn 0x7C ++ [decimal a, decimal b] := by
  rw [recordLine, List.splitOn_append_cons_self, List.splitOn_append_cons_self,
    List.splitOn_eq_singleton not_mem_decimal_bar, List.splitOn_eq_singleton not_mem_decimal_bar, List.singleton_append]

theorem intOrZero_decimal (n : ℕ) : intOrZero py (decimal n) = n := by
  rw [intOrZero, if_neg (component_decimal n).ne_nil, py.int_decimal, Option.getD_some]

/-- **What is read of a row**: the path up to the first bar, and the other columns if there is none in it. -/
theorem parseRecord_recordLine (py : Python) (key : JsString) (a b : ℕ) :
    ∃ path value, parseRecord py (recordLine key a b) = some (if validateStoragePath path then some (path, value) else none) ∧
      0x7C ∉ path ∧ (path = key ∧ value = ((a : ℤ), (b : ℤ)) ∨ ∃ rest, key = path ++ 0x7C :: rest) := by
  by_cases hbar : (0x7C : UInt16) ∈ key
  · obtain ⟨path, rest, rfl, hpath⟩ := List.eq_append_cons_of_mem hbar
    have hsplit : (recordLine (path ++ 0x7C :: rest) a b).splitOn 0x7C =
        path :: (rest.splitOn 0x7C ++ [decimal a, decimal b]) := by
      rw [splitOn_recordLine, List.splitOn_append_cons_self, List.splitOn_eq_singleton hpath, List.singleton_append,
        List.cons_append]
    obtain ⟨second, others, hrest⟩ := List.exists_cons_of_ne_nil (List.splitOn_ne_nil 0x7C rest)
    obtain ⟨third, last, hthird⟩ : ∃ third last, others ++ [decimal a, decimal b] = third :: last :=
      List.exists_cons_of_ne_nil (by simp)
    refine ⟨path, (intOrZero py second, intOrZero py third), ?_, hpath, .inr ⟨rest, rfl⟩⟩
    unfold parseRecord
    rw [hsplit, hrest, List.cons_append, hthird]
    dsimp only
    split <;> rfl
  · refine ⟨key, _, ?_, hbar, .inl ⟨rfl, rfl⟩⟩
    unfold parseRecord
    rw [splitOn_recordLine, List.splitOn_eq_singleton hbar, List.singleton_append]
    dsimp only
    rw [intOrZero_decimal, intOrZero_decimal]
    split <;> rfl

/-- The rows that the query for the files returns. -/
def live (s : State) : List FileRow := s.files.filter fun row => !row.isFolder && !row.isDeleted

theorem mem_live {s : State} {row : FileRow} :
    row ∈ live s ↔ row ∈ s.files ∧ row.isFolder = false ∧ row.isDeleted = false := by
  rw [live, List.mem_filter, Bool.and_eq_true, Bool.not_eq_true', Bool.not_eq_true']

theorem intField_decimal (n : ℕ) : intField py (decimal n) = some (n : ℤ) := by
  rw [intField, if_neg (component_decimal n).ne_nil, py.int_decimal]

/-- **The counters that are reported.** -/
theorem usageLines_eq (s : State) :
    (records ((usageRows s).flatMap (· ++ [0x0A]))).filterMap (parseUsage py) = s.users.filterMap fun user =>
      if activeUsage s user.id ≠ user.storageUsed then
        some (.usageDrift (decimal user.id) (activeUsage s user.id) user.storageUsed)
      else none := by
  have hprinted : ∀ r ∈ usageRows s, Printed r := by
    intro r hr
    obtain ⟨user, -, rfl⟩ := List.mem_map.mp hr
    refine printed_recordLine ?_ fun h => absurd (mem_decimal h).1 (by decide)
    obtain ⟨d, ds, hd⟩ := List.exists_cons_of_ne_nil (component_decimal user.id).ne_nil
    exact ⟨d, ds, hd, isSpace_decimal (n := user.id) (hd ▸ List.mem_cons_self)⟩
  rw [records_flatMap hprinted, usageRows, List.filterMap_map]
  refine congrArg (List.filterMap · s.users) (funext fun user => ?_)
  show parseUsage py (recordLine (decimal user.id) (activeUsage s user.id) user.storageUsed) = _
  unfold parseUsage
  rw [splitOn_recordLine, List.splitOn_eq_singleton not_mem_decimal_bar, List.singleton_append]
  dsimp only
  rw [intField_decimal, intField_decimal]
  simp only [Option.bind_eq_bind, Option.bind_some, ne_eq, Nat.cast_inj]

end Rows

/-! ## The comparison -/

section Comparison

variable {py : Python} {α : Type} {dict : List (JsString × α)} {k : JsString} {v : α}

theorem mem_keys : k ∈ keys dict ↔ ∃ v, (k, v) ∈ dict := by
  rw [keys, List.mem_dedup, List.mem_map]
  constructor
  · rintro ⟨⟨k', v⟩, hmem, rfl⟩
    exact ⟨v, hmem⟩
  · rintro ⟨v, hmem⟩
    exact ⟨(k, v), hmem, rfl⟩

theorem mem_of_value (h : value dict k = some v) : (k, v) ∈ dict := by
  obtain ⟨⟨k', v'⟩, hfind, rfl⟩ := Option.map_eq_some_iff.mp h
  have hkey := List.find?_some hfind
  rw [decide_eq_true_eq] at hkey
  cases hkey
  exact List.mem_reverse.mp (List.mem_of_find?_eq_some hfind)

theorem exists_value (h : (k, v) ∈ dict) : ∃ v', value dict k = some v' := by
  refine Option.ne_none_iff_exists'.mp fun hnone => ?_
  have hnot := List.find?_eq_none.mp (Option.map_eq_none_iff.mp hnone) (k, v) (List.mem_reverse.mpr h)
  exact hnot (decide_eq_true rfl)

theorem value_eq_some (h : (k, v) ∈ dict) (hunique : ∀ v', (k, v') ∈ dict → v' = v) : value dict k = some v := by
  obtain ⟨v', hvalue⟩ := exists_value h
  rw [hvalue, hunique v' (mem_of_value hvalue)]

variable {ks : List JsString} {p : JsString → Bool} {f : JsString → Option Line} {x : Line}

theorem mem_sorted_filter : k ∈ sorted py (ks.filter p) ↔ k ∈ ks ∧ p k = true := by
  rw [sorted, List.mem_insertionSort, List.mem_filter]

theorem lines_eq_nil (h : ∀ k ∈ ks, p k = true → f k = none) : (sorted py (ks.filter p)).filterMap f = [] :=
  List.filterMap_eq_nil_iff.mpr fun k hk => h k (mem_sorted_filter.mp hk).1 (mem_sorted_filter.mp hk).2

theorem lines_ne_nil (hk : k ∈ ks) (hp : p k = true) (hf : f k = some x) : (sorted py (ks.filter p)).filterMap f ≠ [] :=
  fun hnil => by
    have hnone := List.filterMap_eq_nil_iff.mp hnil k (mem_sorted_filter.mpr ⟨hk, hp⟩)
    rw [hf] at hnone
    cases hnone

theorem lines_eq_singleton (hks : ks.Nodup) (hk : k ∈ ks) (hp : p k = true) (hf : f k = some x)
    (hother : ∀ k' ∈ ks, p k' = true → k' ≠ k → f k' = none) : (sorted py (ks.filter p)).filterMap f = [x] :=
  filterMap_eq_singleton ((List.perm_insertionSort _ _).nodup_iff.mpr (hks.filter p)) (mem_sorted_filter.mpr ⟨hk, hp⟩) hf
    fun k' hk' hne => hother k' (mem_sorted_filter.mp hk').1 (mem_sorted_filter.mp hk').2 hne

/-- **The report**, if the listing succeeds. -/
theorem main_eq {s : State} {phys : List (JsString × ℤ)} (h : listStorageFiles py s = some phys) :
    main py s = some (((dbRecords py s).filter (·.isNone)).map (fun _ => Line.invalidPlacement) ++
      (danglingLines py ((dbRecords py s).filterMap id) phys).take 10 ++
      (mismatchLines py ((dbRecords py s).filterMap id) phys).take 10 ++
      ((orphanLines py ((dbRecords py s).filterMap id) phys).take 10 ++ (s.users.filterMap fun user =>
        if activeUsage s user.id ≠ user.storageUsed then
          some (Line.usageDrift (decimal user.id) (activeUsage s user.id) user.storageUsed)
        else none).take 5)) := by
  unfold main
  rw [h, usageLines_eq]
  rfl

end Comparison

/-! ## What is read in a consistent state -/

/-- A name in the directory of a user is taken for a path. -/
theorem valid_of_shape {key : JsString} (h : Shape key) : validateStoragePath key = true := by
  obtain ⟨userId, name, rfl, hname, hwell, -⟩ := h
  have hvalid := validateObjectKey_eq userId hname
  rw [if_pos hwell] at hvalid
  unfold validateObjectKey at hvalid
  dsimp only at hvalid
  split at hvalid
  · cases hvalid
  · next hnot =>
    simp only [not_or] at hnot
    obtain ⟨-, hne, hback, hnul, hhead, -, hparts, htmp, hmarker, hprobe, hrestore⟩ := hnot
    have hdot : objectKey userId name ≠ ascii "." := by
      intro heq
      have hslash : (0x2F : UInt16) ∈ objectKey userId name := List.mem_append_right _ List.mem_cons_self
      exact absurd (heq ▸ hslash) (by decide)
    have hroot : objectKey userId name ≠ ascii "/storage" := fun heq => hhead (heq ▸ rfl)
    unfold validateStoragePath
    simp only [Bool.not_eq_true', Bool.or_eq_false_iff, decide_eq_false_iff_not, List.any_eq_false,
      Bool.or_eq_true, decide_eq_true_eq]
    refine ⟨⟨⟨⟨⟨⟨⟨⟨⟨⟨hne, hdot⟩, hroot⟩, hhead⟩, hback⟩, fun part hpart hbad => ?_⟩, htmp⟩, hmarker⟩, ?_⟩, ?_⟩, hnul⟩
    · exact hparts ⟨part, hpart, by rcases hbad with (h | h) | h <;> simp [h]⟩
    · exact Bool.eq_false_iff.mpr fun h => hprobe (List.isPrefixOf_iff_prefix.mp h)
    · exact Bool.eq_false_iff.mpr fun h => hrestore (List.isPrefixOf_iff_prefix.mp h)

section Read

variable {py : Python} {low : LowerCase} {s : State} {row row' : FileRow} {key : JsString}

theorem Consistent.row_key (h : Consistent low s) (hrow : row ∈ s.files) (hplain : row.isFolder = false) :
    ∃ key, row.relativeObjectKey = some key ∧ placementColumn s.target row = key ∧ Shape key ∧
      (key, row.size) ∈ s.objects := by
  obtain ⟨key, hkey, hstored, hlegacy, hpath, hobject⟩ := h.placed row hrow hplain
  refine ⟨key, hkey, ?_, hstored.shape, hobject⟩
  unfold placementColumn
  rw [hkey, hlegacy, hpath]
  simp

theorem Consistent.row_eq (h : Consistent low s) (hrow : row ∈ s.files) (hrow' : row' ∈ s.files)
    (hplain : row.isFolder = false) (hplain' : row'.isFolder = false)
    (hkey : row.relativeObjectKey = row'.relativeObjectKey) : row = row' :=
  List.inj_on_of_nodup_map h.distinct (List.mem_filter.mpr ⟨hrow, by rw [hplain]; rfl⟩)
    (List.mem_filter.mpr ⟨hrow', by rw [hplain']; rfl⟩) hkey

theorem Consistent.size_eq (h : Consistent low s) {n m : ℕ} (hn : (key, n) ∈ s.objects) (hm : (key, m) ∈ s.objects) :
    n = m :=
  congrArg Prod.snd (List.inj_on_of_nodup_map h.objects hn hm rfl)

theorem dbRecords_eq (h : Consistent low s) : dbRecords py s =
    (live s).filterMap fun row => parseRecord py (recordLine (placementColumn s.target row) row.size row.userId) := by
  have hprinted : ∀ r ∈ fileRecords s, Printed r := by
    intro r hr
    obtain ⟨row, hrow, rfl⟩ := List.mem_map.mp hr
    obtain ⟨hmem, hplain, -⟩ := mem_live.mp hrow
    obtain ⟨key, -, hcolumn, hshape, -⟩ := h.row_key hmem hplain
    rw [hcolumn]
    refine printed_recordLine ?_ fun hnewline => absurd (hshape.le _ hnewline) (by decide)
    obtain ⟨userId, name, rfl, -⟩ := hshape
    obtain ⟨d, ds, hd⟩ := List.exists_cons_of_ne_nil (component_decimal userId).ne_nil
    exact ⟨d, ds ++ 0x2F :: name, by rw [objectKey, hd, List.cons_append],
      isSpace_decimal (n := userId) (hd ▸ List.mem_cons_self)⟩
  rw [dbRecords, records_flatMap hprinted, fileRecords, List.filterMap_map]
  rfl

/-- A row is read up to the first bar of its key. -/
theorem read_of_live (py : Python) (h : Consistent low s) (hrow : row ∈ live s) :
    ∃ key path value, row.relativeObjectKey = some key ∧ Shape key ∧ (key, row.size) ∈ s.objects ∧
      (if validateStoragePath path then some (path, value) else none) ∈ dbRecords py s ∧ 0x7C ∉ path ∧
        (path = key ∧ value = ((row.size : ℤ), (row.userId : ℤ)) ∨ ∃ rest, key = path ++ 0x7C :: rest) := by
  obtain ⟨hmem, hplain, -⟩ := mem_live.mp hrow
  obtain ⟨key, hkey, hcolumn, hshape, hobject⟩ := h.row_key hmem hplain
  obtain ⟨path, value, hread, hbar, hpath⟩ := parseRecord_recordLine py key row.size row.userId
  refine ⟨key, path, value, hkey, hshape, hobject, ?_, hbar, hpath⟩
  rw [dbRecords_eq h]
  exact List.mem_filterMap.mpr ⟨row, hrow, hcolumn ▸ hread⟩

theorem live_of_read (h : Consistent low s) {r : Option (JsString × ℤ × ℤ)} (hr : r ∈ dbRecords py s) :
    ∃ row ∈ live s, ∃ key path value, row.relativeObjectKey = some key ∧ Shape key ∧
      r = (if validateStoragePath path then some (path, value) else none) ∧ 0x7C ∉ path ∧
        (path = key ∧ value = ((row.size : ℤ), (row.userId : ℤ)) ∨ ∃ rest, key = path ++ 0x7C :: rest) := by
  rw [dbRecords_eq h] at hr
  obtain ⟨row, hrow, hread⟩ := List.mem_filterMap.mp hr
  obtain ⟨hmem, hplain, -⟩ := mem_live.mp hrow
  obtain ⟨key, hkey, hcolumn, hshape, -⟩ := h.row_key hmem hplain
  obtain ⟨path, value, hparse, hbar, hpath⟩ := parseRecord_recordLine py key row.size row.userId
  rw [hcolumn, hparse] at hread
  exact ⟨row, hrow, key, path, value, hkey, hshape, (Option.some.inj hread).symm, hbar, hpath⟩

/-- A path that is cut off at a bar is hidden with the whole one. -/
theorem not_found_of_cut {target path rest : JsString} (hshape : Shape (path ++ 0x7C :: rest))
    (hhidden : found target (path ++ 0x7C :: rest) = false) : found target path = false := by
  have hslash : (0x2F : UInt16) ∉ (0x7C : UInt16) :: rest := by
    obtain ⟨userId, name, heq, hname, -⟩ := hshape
    have hsplit : (decimal userId ++ [0x2F]) ++ name = path ++ 0x7C :: rest := by
      rw [heq, objectKey, List.append_assoc, List.singleton_append]
    have hfree : (0x7C : UInt16) ∉ decimal userId ++ [0x2F] := by
      rw [List.mem_append, not_or]
      exact ⟨not_mem_decimal_bar, by decide⟩
    exact fun hmem => hname.slash ((suffix_of_append hsplit hfree).subset hmem)
  have hpath : fullPath target (path ++ 0x7C :: rest) = fullPath target path ++ 0x7C :: rest := by
    simp [fullPath]
  rw [found, hpath, Bool.and_eq_false_iff, Bool.not_eq_false', Bool.not_eq_false', decide_eq_true_eq,
    decide_eq_true_eq] at hhidden
  rw [found, Bool.and_eq_false_iff, Bool.not_eq_false', Bool.not_eq_false', decide_eq_true_eq, decide_eq_true_eq]
  exact hhidden.imp (fun h => infix_of_append h (by decide) (by decide) hslash)
    fun h => infix_of_append h (by decide) (by decide) hslash

/-- What is read of the rows and taken into the dictionary. -/
def read (py : Python) (s : State) : List (JsString × ℤ × ℤ) := (dbRecords py s).filterMap id

theorem mem_read {path : JsString} {value : ℤ × ℤ} : (path, value) ∈ read py s ↔ some (path, value) ∈ dbRecords py s := by
  rw [read, List.mem_filterMap]
  exact ⟨fun ⟨r, hr, heq⟩ => heq ▸ hr, fun h => ⟨_, h, rfl⟩⟩

/-- No key in the dictionary of the rows has a bar. -/
theorem not_bar_of_mem_keys (h : Consistent low s) (hkey : key ∈ keys (read py s)) : 0x7C ∉ key := by
  obtain ⟨value, hmem⟩ := mem_keys.mp hkey
  obtain ⟨row, -, key', path, value', -, -, hread, hbar, -⟩ := live_of_read h (mem_read.mp hmem)
  split at hread
  · cases hread
    exact hbar
  · cases hread

/-- Every ordinary file that is not in the trash has a key without a bar. -/
def Barless (s : State) : Prop := ∀ row ∈ live s, ∀ key, row.relativeObjectKey = some key → 0x7C ∉ key

/-- **The dictionary of the rows**, if no key has a bar. -/
theorem mem_read_iff (h : Consistent low s) (hplain : Barless s) {value : ℤ × ℤ} :
    (key, value) ∈ read py s ↔
      ∃ row ∈ live s, row.relativeObjectKey = some key ∧ value = ((row.size : ℤ), (row.userId : ℤ)) := by
  rw [mem_read]
  constructor
  · intro hmem
    obtain ⟨row, hrow, key', path, value', hkey, -, hread, -, hpath⟩ := live_of_read h hmem
    rcases hpath with ⟨rfl, rfl⟩ | ⟨rest, rfl⟩
    · split at hread
      · cases hread
        exact ⟨row, hrow, hkey, rfl⟩
      · cases hread
    · exact absurd (List.mem_append_right path List.mem_cons_self) (hplain row hrow _ hkey)
  · rintro ⟨row, hrow, hkey, rfl⟩
    obtain ⟨key', path, value, hkey', hshape, -, hread, -, hpath⟩ := read_of_live py h hrow
    cases hkey.symm.trans hkey'
    rcases hpath with ⟨rfl, rfl⟩ | ⟨rest, rfl⟩
    · rwa [if_pos (valid_of_shape hshape)] at hread
    · exact absurd (List.mem_append_right path List.mem_cons_self) (hplain row hrow _ hkey)

theorem value_read (h : Consistent low s) (hplain : Barless s) (hrow : row ∈ live s)
    (hkey : row.relativeObjectKey = some key) :
    value (read py s) key = some ((row.size : ℤ), (row.userId : ℤ)) := by
  refine value_eq_some ((mem_read_iff h hplain).mpr ⟨row, hrow, hkey, rfl⟩) fun value hvalue => ?_
  obtain ⟨row', hrow', hkey', rfl⟩ := (mem_read_iff h hplain).mp hvalue
  obtain ⟨hmem, hfolder, -⟩ := mem_live.mp hrow
  obtain ⟨hmem', hfolder', -⟩ := mem_live.mp hrow'
  rw [h.row_eq hmem hmem' hfolder hfolder' (hkey.trans hkey'.symm)]

/-- No row has a placement that is not valid. -/
theorem no_invalid (h : Consistent low s) (hplain : Barless s) : (dbRecords py s).filter (·.isNone) = [] := by
  rw [List.filter_eq_nil_iff]
  intro r hr hnone
  obtain ⟨row, hrow, key, path, value, hkey, hshape, rfl, -, hpath⟩ := live_of_read h hr
  rcases hpath with ⟨rfl, -⟩ | ⟨rest, rfl⟩
  · rw [if_pos (valid_of_shape hshape)] at hnone
    cases hnone
  · exact absurd (List.mem_append_right path List.mem_cons_self) (hplain row hrow _ hkey)

theorem mem_phys {n : ℤ} : (key, n) ∈ (visible s).map (fun object => (object.1, (object.2 : ℤ))) ↔
    ∃ m : ℕ, n = m ∧ (key, m) ∈ visible s := by
  rw [List.mem_map]
  constructor
  · rintro ⟨⟨key', m⟩, hmem, heq⟩
    cases heq
    exact ⟨m, rfl, hmem⟩
  · rintro ⟨m, rfl, hmem⟩
    exact ⟨(key, m), hmem, rfl⟩

end Read

/-! ## The usage -/

section Usage

variable {s : State}

/-- The bytes of a user's files in the trash. -/
def trashed (s : State) (userId : ℕ) : ℕ :=
  ((s.files.filter fun row => row.userId = userId && !row.isFolder && row.isDeleted).map (·.size)).sum

theorem usage_eq (s : State) (userId : ℕ) : usage s userId = activeUsage s userId + trashed s userId := by
  unfold usage activeUsage trashed
  induction s.files with
  | nil => rfl
  | cons row rows ih =>
    cases hfolder : row.isFolder <;> cases hdeleted : row.isDeleted <;> by_cases huser : row.userId = userId <;>
      simp [hfolder, hdeleted, huser] at ih ⊢ <;> omega

theorem trashed_eq_zero {userId : ℕ} :
    trashed s userId = 0 ↔ ∀ row ∈ s.files, row.userId = userId → row.isFolder = false → row.isDeleted = true → row.size = 0 := by
  rw [trashed, List.sum_eq_zero_iff]
  simp only [List.mem_map, List.mem_filter, Bool.and_eq_true, decide_eq_true_eq, Bool.not_eq_true']
  constructor
  · exact fun h row hrow huser hfolder hdeleted => h row.size ⟨row, ⟨hrow, ⟨huser, hfolder⟩, hdeleted⟩, rfl⟩
  · rintro h n ⟨row, ⟨hrow, ⟨huser, hfolder⟩, hdeleted⟩, rfl⟩
    exact h row hrow huser hfolder hdeleted

end Usage

/-! ## The empty report -/

section Empty

variable {py : Python} {low : LowerCase} {s : State} {row : FileRow} {key : JsString} {phys : List (JsString × ℤ)}

theorem take_eq_nil {α : Type} {l : List α} {n : ℕ} (h : l.take (n + 1) = []) : l = [] :=
  (List.take_eq_nil_iff.mp h).resolve_left n.succ_ne_zero

theorem danglingLines_ne_nil {value : ℤ × ℤ} (hread : (key, value) ∈ read py s) (hphys : key ∉ keys phys) :
    danglingLines py (read py s) phys ≠ [] := by
  obtain ⟨value', hvalue⟩ := exists_value hread
  exact lines_ne_nil (mem_keys.mpr ⟨value, hread⟩) (decide_eq_true hphys) (by rw [hvalue]; rfl)

theorem orphanLines_ne_nil {n : ℤ} (hphys : (key, n) ∈ phys) (hread : key ∉ keys (read py s)) :
    orphanLines py (read py s) phys ≠ [] := by
  obtain ⟨n', hvalue⟩ := exists_value hphys
  exact lines_ne_nil (mem_keys.mpr ⟨n, hphys⟩) (decide_eq_true hread) (by rw [hvalue]; rfl)

/-- **A report that is empty** means that the script reads what is there. -/
theorem legible_of_main (h : Consistent low s) (hmain : main py s = some []) : Legible s := by
  have hunbroken : ∀ object ∈ s.objects, found s.target object.1 = true → Unbroken (fullPath s.target object.1) := by
    intro object hobject hfound
    by_contra hbroken
    have hkey : Unbroken object.1 ∨ Shape object.1 := by
      rcases h.held object hobject with htemp | ⟨row, hrow, hplain, hkey⟩
      · exact .inl (htemp.not_valid hfound).1
      · obtain ⟨key, hkey', -, hshape, -⟩ := h.row_key hrow hplain
        cases hkey.symm.trans hkey'
        exact .inr hshape
    unfold main at hmain
    rw [listStorageFiles_eq_none h.carriage hobject hfound hbroken hkey] at hmain
    cases hmain
  rw [main_eq (listStorageFiles_eq h.root hunbroken), Option.some.injEq] at hmain
  simp only [List.append_eq_nil_iff] at hmain
  obtain ⟨⟨⟨hinvalid, hdangling⟩, -⟩, horphan, hdrift⟩ := hmain
  replace hdangling : danglingLines py (read py s) _ = [] := take_eq_nil hdangling
  replace horphan : orphanLines py (read py s) _ = [] := take_eq_nil horphan
  replace hdrift := take_eq_nil hdrift
  have hvisible : ∀ row ∈ live s, ∀ key, row.relativeObjectKey = some key → found s.target key = true := by
    intro row hrow key hkey
    by_contra hhidden
    obtain ⟨key', path, value, hkey', hshape, -, hread, -, hpath⟩ := read_of_live py h hrow
    cases hkey.symm.trans hkey'
    have hnot : found s.target path = false := by
      rcases hpath with ⟨rfl, -⟩ | ⟨rest, rfl⟩
      · exact eq_false_of_ne_true hhidden
      · exact not_found_of_cut hshape (eq_false_of_ne_true hhidden)
    cases hvalid : validateStoragePath path with
    | false =>
      rw [hvalid, if_neg Bool.false_ne_true] at hread
      have hnone := List.map_eq_nil_iff.mp hinvalid
      exact absurd (List.mem_filter.mpr ⟨hread, rfl⟩) (hnone ▸ List.not_mem_nil)
    | true =>
      rw [hvalid, if_pos rfl] at hread
      refine danglingLines_ne_nil (mem_read.mpr hread) (fun hmem => ?_) hdangling
      obtain ⟨n, hmem⟩ := mem_keys.mp hmem
      obtain ⟨m, -, hmem⟩ := mem_phys.mp hmem
      rw [(mem_visible.mp hmem).2.1] at hnot
      cases hnot
  have hbar : Barless s := by
    intro row hrow key hkey hmem
    obtain ⟨key', path, value, hkey', hshape, hobject, -⟩ := read_of_live py h hrow
    cases hkey.symm.trans hkey'
    refine orphanLines_ne_nil (mem_phys.mpr ⟨row.size, rfl, mem_visible.mpr
      ⟨hobject, hvisible row hrow key hkey, valid_of_shape hshape⟩⟩) (fun hkeys => ?_) horphan
    exact not_bar_of_mem_keys h hkeys hmem
  refine ⟨hunbroken, fun row hrow hplain hlive key hkey => ?_, fun row hrow hplain hdeleted => ⟨?_, fun key hkey => ?_⟩⟩
  · have hmem := mem_live.mpr ⟨hrow, hplain, hlive⟩
    exact ⟨hbar row hmem key hkey, hvisible row hmem key hkey⟩
  · -- The bytes in the trash are counted by the backend only.
    obtain ⟨user, huser, howner⟩ := h.owned row hrow
    have hnone := List.filterMap_eq_nil_iff.mp hdrift user huser
    split at hnone
    · cases hnone
    · next heq =>
      have hused := h.counted user huser
      rw [not_not] at heq
      rw [usage_eq] at hused
      have hzero : trashed s user.id = 0 := by omega
      exact trashed_eq_zero.mp hzero row hrow howner.symm hplain hdeleted
  · -- Its object is listed and no row that is read has its key.
    by_contra hfound
    obtain ⟨key', hkey', -, hshape, hobject⟩ := h.row_key hrow hplain
    cases hkey.symm.trans hkey'
    refine orphanLines_ne_nil (mem_phys.mpr ⟨row.size, rfl, mem_visible.mpr
      ⟨hobject, eq_true_of_ne_false hfound, valid_of_shape hshape⟩⟩) (fun hkeys => ?_) horphan
    obtain ⟨value, hread⟩ := mem_keys.mp hkeys
    obtain ⟨row', hrow', hkey'', -⟩ := (mem_read_iff h hbar).mp hread
    obtain ⟨hmem', hplain', hlive'⟩ := mem_live.mp hrow'
    rw [← h.row_eq hrow hmem' hplain hplain' (hkey.trans hkey''.symm), hdeleted] at hlive'
    cases hlive'

end Empty

/-! ## The report of a difference -/

section Differences

variable {py : Python} {low : LowerCase} {s : State} {row : FileRow} {key : JsString} {d : Discrepancy}

theorem Legible.barless (hl : Legible s) : Barless s := fun row hrow key hkey =>
  (hl.live row (mem_live.mp hrow).1 (mem_live.mp hrow).2.1 (mem_live.mp hrow).2.2 key hkey).1

/-- What is listed are the objects of the files that are not in the trash. -/
theorem mem_visible_iff (h : Consistent low s) (hl : Legible s) {n : ℕ} :
    (key, n) ∈ visible s ↔ ∃ row ∈ live s, row.relativeObjectKey = some key ∧ row.size = n := by
  rw [mem_visible]
  constructor
  · rintro ⟨hobject, hfound, hvalid⟩
    rcases h.held _ hobject with htemp | ⟨row, hrow, hplain, hkey⟩
    · rw [(htemp.not_valid hfound).2] at hvalid
      cases hvalid
    · obtain ⟨key', hkey', -, -, hobject'⟩ := h.row_key hrow hplain
      cases hkey.symm.trans hkey'
      refine ⟨row, mem_live.mpr ⟨hrow, hplain, ?_⟩, hkey, h.size_eq hobject' hobject⟩
      by_contra hdeleted
      rw [(hl.trash row hrow hplain (eq_true_of_ne_false hdeleted)).2 _ hkey] at hfound
      cases hfound
  · rintro ⟨row, hrow, hkey, rfl⟩
    obtain ⟨hmem, hplain, hlive⟩ := mem_live.mp hrow
    obtain ⟨key', hkey', -, hshape, hobject⟩ := h.row_key hmem hplain
    cases hkey.symm.trans hkey'
    exact ⟨hobject, (hl.live row hmem hplain hlive _ hkey).2, valid_of_shape hshape⟩

theorem activeUsage_eq (h : Consistent low s) (hl : Legible s) {user : UserRow} (huser : user ∈ s.users) :
    activeUsage s user.id = user.storageUsed := by
  have hzero : trashed s user.id = 0 := trashed_eq_zero.mpr fun row hrow _ hplain hdeleted =>
    (hl.trash row hrow hplain hdeleted).1
  have hused := h.counted user huser
  rw [usage_eq] at hused
  omega

/-- The rows are those of the state. -/
theorem dbRecords_apply (d : Discrepancy) : dbRecords py (d.apply s) = dbRecords py s := by
  cases d <;> rfl

theorem target_apply (d : Discrepancy) : (d.apply s).target = s.target := by
  cases d <;> rfl

theorem activeUsage_apply (d : Discrepancy) (userId : ℕ) : activeUsage (d.apply s) userId = activeUsage s userId := by
  cases d <;> rfl

/-- **The paths are still read**, unless an object is added whose path is not. -/
theorem unbroken_apply (hl : Legible s) (hseen : ∀ key size, d = .extra key size → found s.target key = true →
      Unbroken (fullPath s.target key)) :
    ∀ object ∈ (d.apply s).objects, found (d.apply s).target object.1 = true →
      Unbroken (fullPath (d.apply s).target object.1) := by
  intro object hobject hfound
  rw [target_apply] at hfound ⊢
  cases d with
  | missing key user size => exact hl.unbroken object (List.mem_filter.mp hobject).1 hfound
  | extra key size =>
    rcases List.mem_cons.mp hobject with rfl | hobject
    · exact hseen key size rfl hfound
    · exact hl.unbroken object hobject hfound
  | wrongSize key size actual =>
    obtain ⟨object', hobject', rfl⟩ := List.mem_map.mp hobject
    by_cases heq : object'.1 = key
    · rw [if_pos heq] at hfound ⊢
      exact heq ▸ hl.unbroken object' hobject' (heq ▸ hfound)
    · rw [if_neg heq] at hfound ⊢
      exact hl.unbroken object' hobject' hfound
  | usage user actual reported => exact hl.unbroken object hobject hfound

/-- What is in the report comes from one of its parts. -/
theorem mem_report {x : Line} {lines : List Line} (h : main py s = some lines) (hx : x ∈ lines) :
    ∃ phys, listStorageFiles py s = some phys ∧ (x = .invalidPlacement ∨ x ∈ danglingLines py (read py s) phys ∨
      x ∈ mismatchLines py (read py s) phys ∨ x ∈ orphanLines py (read py s) phys ∨
        ∃ user actual reported, x = .usageDrift user actual reported) := by
  cases hphys : listStorageFiles py s with
  | none =>
    unfold main at h
    rw [hphys] at h
    cases h
  | some phys =>
    rw [main_eq hphys] at h
    cases h
    refine ⟨phys, rfl, ?_⟩
    simp only [List.mem_append] at hx
    rcases hx with ((hx | hx) | hx) | hx | hx
    · obtain ⟨r, -, rfl⟩ := List.mem_map.mp hx
      exact .inl rfl
    · exact .inr (.inl (List.mem_of_mem_take hx))
    · exact .inr (.inr (.inl (List.mem_of_mem_take hx)))
    · exact .inr (.inr (.inr (.inl (List.mem_of_mem_take hx))))
    · obtain ⟨user, -, hline⟩ := List.mem_filterMap.mp (List.mem_of_mem_take hx)
      split at hline
      · cases hline
        exact .inr (.inr (.inr (.inr ⟨_, _, _, rfl⟩)))
      · cases hline

theorem mem_danglingLines {db : List (JsString × ℤ × ℤ)} {phys : List (JsString × ℤ)} {x : Line}
    (h : x ∈ danglingLines py db phys) : ∃ key ∈ keys db, ∃ user size, x = .dangling key user size := by
  obtain ⟨key, hkey, hline⟩ := List.mem_filterMap.mp h
  obtain ⟨row, -, rfl⟩ := Option.map_eq_some_iff.mp hline
  exact ⟨key, (mem_sorted_filter.mp hkey).1, _, _, rfl⟩

theorem mem_orphanLines {db : List (JsString × ℤ × ℤ)} {phys : List (JsString × ℤ)} {x : Line}
    (h : x ∈ orphanLines py db phys) : ∃ key ∈ keys phys, ∃ size, x = .orphan key size := by
  obtain ⟨key, hkey, hline⟩ := List.mem_filterMap.mp h
  obtain ⟨size, -, rfl⟩ := Option.map_eq_some_iff.mp hline
  exact ⟨key, (mem_sorted_filter.mp hkey).1, size, rfl⟩

theorem mem_mismatchLines {db : List (JsString × ℤ × ℤ)} {phys : List (JsString × ℤ)} {x : Line}
    (h : x ∈ mismatchLines py db phys) : ∃ key ∈ keys db, ∃ dbSize actualSize, x = .sizeMismatch key dbSize actualSize := by
  obtain ⟨key, hkey, hline⟩ := List.mem_filterMap.mp h
  obtain ⟨row, -, hline⟩ := Option.bind_eq_some_iff.mp hline
  obtain ⟨size, -, hline⟩ := Option.bind_eq_some_iff.mp hline
  split at hline
  · cases hline
    exact ⟨key, (mem_sorted_filter.mp hkey).1, _, _, rfl⟩
  · cases hline

/-- A file whose object is listed is not in the trash. -/
theorem live_of_found (hl : Legible s) (hrow : row ∈ s.files) (hplain : row.isFolder = false)
    (hkey : row.relativeObjectKey = some key) (hfound : found s.target key = true) : row ∈ live s := by
  refine mem_live.mpr ⟨hrow, hplain, ?_⟩
  by_contra hdeleted
  rw [(hl.trash row hrow hplain (eq_true_of_ne_false hdeleted)).2 key hkey] at hfound
  cases hfound

/-- The files in the dictionary are those whose objects are listed. -/
theorem mem_keys_read_iff (h : Consistent low s) (hl : Legible s) :
    key ∈ keys (read py s) ↔ ∃ n, (key, n) ∈ visible s := by
  rw [mem_keys]
  constructor
  · rintro ⟨value, hread⟩
    obtain ⟨row, hrow, hkey, -⟩ := (mem_read_iff h hl.barless).mp hread
    exact ⟨row.size, (mem_visible_iff h hl).mpr ⟨row, hrow, hkey, rfl⟩⟩
  · rintro ⟨n, hmem⟩
    obtain ⟨row, hrow, hkey, -⟩ := (mem_visible_iff h hl).mp hmem
    exact ⟨_, (mem_read_iff h hl.barless).mpr ⟨row, hrow, hkey, rfl⟩⟩

theorem mem_keys_phys : key ∈ keys ((visible s).map fun object => (object.1, (object.2 : ℤ))) ↔
    ∃ n, (key, n) ∈ visible s := by
  rw [mem_keys]
  constructor
  · rintro ⟨n, hmem⟩
    obtain ⟨m, -, hmem⟩ := mem_phys.mp hmem
    exact ⟨m, hmem⟩
  · rintro ⟨n, hmem⟩
    exact ⟨n, mem_phys.mpr ⟨n, rfl, hmem⟩⟩

/-- The size of an object in a state with one listed for a key. -/
theorem value_phys {n : ℕ} (hmem : (key, n) ∈ visible s) (hunique : ∀ m, (key, m) ∈ visible s → m = n) :
    value ((visible s).map fun object => (object.1, (object.2 : ℤ))) key = some (n : ℤ) := by
  refine value_eq_some (mem_phys.mpr ⟨n, rfl, hmem⟩) fun m hm => ?_
  obtain ⟨m', rfl, hm'⟩ := mem_phys.mp hm
  rw [hunique m' hm']

theorem size_eq_of_visible (h : Consistent low s) {n m : ℕ} (hn : (key, n) ∈ visible s) (hm : (key, m) ∈ visible s) :
    n = m :=
  h.size_eq (mem_visible.mp hn).1 (mem_visible.mp hm).1

/-- **The report is empty** if the script reads what is there. -/
theorem main_of_legible (h : Consistent low s) (hl : Legible s) : main py s = some [] := by
  have hphys : listStorageFiles py s = _ := listStorageFiles_eq h.root hl.unbroken
  have hdangling : danglingLines py (read py s) ((visible s).map fun object => (object.1, (object.2 : ℤ))) = [] :=
    lines_eq_nil fun key hkey hnot => absurd (mem_keys_phys.mpr ((mem_keys_read_iff h hl).mp hkey)) (of_decide_eq_true hnot)
  have horphan : orphanLines py (read py s) ((visible s).map fun object => (object.1, (object.2 : ℤ))) = [] :=
    lines_eq_nil fun key hkey hnot => absurd ((mem_keys_read_iff h hl).mpr (mem_keys_phys.mp hkey)) (of_decide_eq_true hnot)
  have hmismatch : mismatchLines py (read py s) ((visible s).map fun object => (object.1, (object.2 : ℤ))) = [] := by
    refine lines_eq_nil fun key hkey _ => ?_
    obtain ⟨n, hmem⟩ := (mem_keys_read_iff h hl).mp hkey
    obtain ⟨row, hrow, hkey, rfl⟩ := (mem_visible_iff h hl).mp hmem
    rw [value_read h hl.barless hrow hkey, value_phys hmem fun m hm => size_eq_of_visible h hm hmem]
    simp
  have hdrift : (s.users.filterMap fun user =>
      if activeUsage s user.id ≠ user.storageUsed then
        some (Line.usageDrift (decimal user.id) (activeUsage s user.id) user.storageUsed)
      else none) = [] :=
    List.filterMap_eq_nil_iff.mpr fun user huser => if_neg fun hne => hne (activeUsage_eq h hl huser)
  rw [main_eq hphys, no_invalid h hl.barless, hdrift]
  change some (_ ++ (danglingLines py (read py s) _).take 10 ++ (mismatchLines py (read py s) _).take 10 ++
    ((orphanLines py (read py s) _).take 10 ++ _)) = _
  rw [hdangling, hmismatch, horphan]
  rfl

/-- **The report names a difference** whose object is listed. -/
theorem reports_of_seen (h : Consistent low s) (hl : Legible s) (happlies : d.Applies s) (hseen : d.Seen s) :
    Reports py (d.apply s) d := by
  have hread : read py (d.apply s) = read py s := by rw [read, dbRecords_apply, read]
  have hroot : (d.apply s).target.head? = some 0x2F := by
    rw [target_apply]
    exact h.root
  have hphys : listStorageFiles py (d.apply s) = _ := listStorageFiles_eq hroot
    (unbroken_apply hl fun key size heq _ => by
      subst heq
      exact hseen.2.2)
  refine ⟨_, main_eq hphys, ?_⟩
  change d.line ∈ _ ++ (danglingLines py (read py (d.apply s)) _).take 10 ++
    (mismatchLines py (read py (d.apply s)) _).take 10 ++ ((orphanLines py (read py (d.apply s)) _).take 10 ++ _)
  rw [hread]
  simp only [List.mem_append]
  cases d with
  | missing key user size =>
    obtain ⟨row, hrow, hplain, hkey, rfl, rfl⟩ := happlies
    have hlive := live_of_found hl hrow hplain hkey hseen
    have hvisible : ∀ k n, (k, n) ∈ visible (Discrepancy.apply s (.missing key row.userId row.size)) ↔
        (k, n) ∈ visible s ∧ k ≠ key := by
      intro k n
      simp only [mem_visible, Discrepancy.apply, List.mem_filter, decide_eq_true_eq]
      tauto
    have hlines : danglingLines py (read py s) ((visible (Discrepancy.apply s (.missing key row.userId row.size))).map
        fun object => (object.1, (object.2 : ℤ))) = [.dangling key row.userId row.size] := by
      refine lines_eq_singleton (List.nodup_dedup _) (mem_keys.mpr ⟨_, (mem_read_iff h hl.barless).mpr
        ⟨row, hlive, hkey, rfl⟩⟩) (decide_eq_true fun hmem => ?_) ?_ fun k hk hnot hne => ?_
      · obtain ⟨n, hmem⟩ := mem_keys_phys.mp hmem
        exact ((hvisible key n).mp hmem).2 rfl
      · rw [value_read h hl.barless hlive hkey]
        rfl
      · obtain ⟨n, hmem⟩ := (mem_keys_read_iff h hl).mp hk
        exact absurd (mem_keys_phys.mpr ⟨n, (hvisible k n).mpr ⟨hmem, hne⟩⟩) (of_decide_eq_true hnot)
    rw [hlines]
    exact .inl (.inl (.inr List.mem_cons_self))
  | extra key size =>
    obtain ⟨-, hnew⟩ := happlies
    obtain ⟨hfound, hvalid, -⟩ := hseen
    have hvisible : ∀ k n, (k, n) ∈ visible (Discrepancy.apply s (.extra key size)) ↔
        (k, n) = (key, size) ∨ (k, n) ∈ visible s := by
      intro k n
      simp only [mem_visible, Discrepancy.apply, List.mem_cons, Prod.mk.injEq]
      constructor
      · rintro ⟨hmem | hmem, hrest⟩
        · exact .inl hmem
        · exact .inr ⟨hmem, hrest⟩
      · rintro (⟨rfl, rfl⟩ | ⟨hmem, hrest⟩)
        · exact ⟨.inl ⟨rfl, rfl⟩, hfound, hvalid⟩
        · exact ⟨.inr hmem, hrest⟩
    have hnone : ∀ n, (key, n) ∉ visible s := fun n hmem => hnew _ (mem_visible.mp hmem).1 rfl
    have hlines : orphanLines py (read py s) ((visible (Discrepancy.apply s (.extra key size))).map
        fun object => (object.1, (object.2 : ℤ))) = [.orphan key size] := by
      refine lines_eq_singleton (List.nodup_dedup _) (mem_keys_phys.mpr ⟨size, (hvisible key size).mpr (.inl rfl)⟩)
        (decide_eq_true fun hmem => ?_) ?_ fun k hk hnot hne => ?_
      · obtain ⟨n, hmem⟩ := (mem_keys_read_iff h hl).mp hmem
        exact hnone n hmem
      · rw [value_phys ((hvisible key size).mpr (.inl rfl)) fun m hm => ?_]
        · rfl
        · rcases (hvisible key m).mp hm with heq | hmem
          · exact (Prod.mk.inj heq).2
          · exact absurd hmem (hnone m)
      · obtain ⟨n, hmem⟩ := mem_keys_phys.mp hk
        rcases (hvisible k n).mp hmem with heq | hmem
        · exact absurd (Prod.mk.inj heq).1 hne
        · exact absurd ((mem_keys_read_iff h hl).mpr ⟨n, hmem⟩) (of_decide_eq_true hnot)
    rw [hlines]
    exact .inr (.inl List.mem_cons_self)
  | wrongSize key size actual =>
    obtain ⟨hne, row, hrow, hplain, hkey, rfl⟩ := happlies
    have hlive := live_of_found hl hrow hplain hkey hseen
    have hvisible : ∀ k n, (k, n) ∈ visible (Discrepancy.apply s (.wrongSize key row.size actual)) ↔
        (k = key ∧ n = actual) ∨ (k ≠ key ∧ (k, n) ∈ visible s) := by
      intro k n
      have hobject : (key, row.size) ∈ s.objects := (mem_visible.mp ((mem_visible_iff h hl).mpr ⟨row, hlive, hkey, rfl⟩)).1
      have hvalid : validateStoragePath key = true :=
        (mem_visible.mp ((mem_visible_iff h hl).mpr ⟨row, hlive, hkey, rfl⟩)).2.2
      simp only [mem_visible, Discrepancy.apply, List.mem_map]
      constructor
      · rintro ⟨⟨⟨k', n'⟩, hmem, heq⟩, hrest⟩
        split at heq
        · cases heq
          exact .inl ⟨rfl, rfl⟩
        · next hk =>
          cases heq
          exact .inr ⟨hk, hmem, hrest⟩
      · rintro (⟨rfl, rfl⟩ | ⟨hk, hmem, hrest⟩)
        · exact ⟨⟨_, hobject, if_pos rfl⟩, hseen, hvalid⟩
        · exact ⟨⟨_, hmem, if_neg hk⟩, hrest⟩
    have hlines : mismatchLines py (read py s) ((visible (Discrepancy.apply s (.wrongSize key row.size actual))).map
        fun object => (object.1, (object.2 : ℤ))) = [.sizeMismatch key row.size actual] := by
      refine lines_eq_singleton (List.nodup_dedup _) (mem_keys.mpr ⟨_, (mem_read_iff h hl.barless).mpr
        ⟨row, hlive, hkey, rfl⟩⟩) (decide_eq_true (mem_keys_phys.mpr ⟨actual, (hvisible key actual).mpr (.inl ⟨rfl, rfl⟩)⟩))
        ?_ fun k hk _ hother => ?_
      · rw [value_read h hl.barless hlive hkey, value_phys ((hvisible key actual).mpr (.inl ⟨rfl, rfl⟩)) fun m hm =>
          ((hvisible key m).mp hm).elim (·.2) fun hm => absurd rfl hm.1]
        simp [hne]
      · obtain ⟨n, hmem⟩ := (mem_keys_read_iff h hl).mp hk
        obtain ⟨row', hrow', hkey', rfl⟩ := (mem_visible_iff h hl).mp hmem
        rw [value_read h hl.barless hrow' hkey', value_phys ((hvisible k _).mpr (.inr ⟨hother, hmem⟩)) fun m hm =>
          ((hvisible k m).mp hm).elim (fun hm => absurd hm.1 hother) fun hm => size_eq_of_visible h hm.2 hmem]
        simp
    rw [hlines]
    exact .inl (.inr List.mem_cons_self)
  | usage user actual reported =>
    obtain ⟨hne, huser⟩ := happlies
    have hactive : activeUsage s user = actual := activeUsage_eq h hl huser
    refine .inr (.inr ?_)
    have hlines : ((Discrepancy.apply s (.usage user actual reported)).users.filterMap fun row =>
        if activeUsage (Discrepancy.apply s (.usage user actual reported)) row.id ≠ row.storageUsed then
          some (Line.usageDrift (decimal row.id) (activeUsage (Discrepancy.apply s (.usage user actual reported)) row.id)
            row.storageUsed)
        else none) = [.usageDrift (decimal user) actual reported] := by
      simp only [activeUsage_apply]
      rw [Discrepancy.apply, List.filterMap_map]
      refine filterMap_eq_singleton (List.Nodup.of_map _ h.users) huser ?_ fun row hrow hother => ?_
      · simp only [Function.comp_apply, if_pos]
        rw [hactive, if_pos (Ne.symm hne)]
      · have hid : row.id ≠ user := fun heq =>
          hother (List.inj_on_of_nodup_map h.users hrow huser heq)
        simp only [Function.comp_apply, if_neg hid]
        exact if_neg fun hdrift => hdrift (activeUsage_eq h hl hrow)
    rw [hlines]
    exact List.mem_cons_self

/-- **A difference that is named** is one whose object is listed. -/
theorem seen_of_reports (h : Consistent low s) (hl : Legible s) (happlies : d.Applies s)
    (hreports : Reports py (d.apply s) d) : d.Seen s := by
  obtain ⟨lines, hmain, hline⟩ := hreports
  obtain ⟨phys, hphys, hpart⟩ := mem_report hmain hline
  have hread : read py (d.apply s) = read py s := by rw [read, dbRecords_apply, read]
  rw [hread] at hpart
  have hfound : ∀ key, key ∈ keys (read py s) → found s.target key = true := by
    intro key hkey
    obtain ⟨n, hmem⟩ := (mem_keys_read_iff h hl).mp hkey
    exact (mem_visible.mp hmem).2.1
  have hroot : (d.apply s).target.head? = some 0x2F := by
    rw [target_apply]
    exact h.root
  rcases hpart with heq | hpart | hpart | hpart | ⟨_, _, _, heq⟩
  · cases d <;> cases heq
  · obtain ⟨key, hkey, user, size, heq⟩ := mem_danglingLines hpart
    cases d <;> cases heq
    exact hfound key hkey
  · obtain ⟨key, hkey, dbSize, actualSize, heq⟩ := mem_mismatchLines hpart
    cases d <;> cases heq
    exact hfound key hkey
  · obtain ⟨key, hkey, size, heq⟩ := mem_orphanLines hpart
    cases d with
    | extra key' size' =>
      cases heq
      obtain ⟨n, hmem⟩ := mem_keys.mp hkey
      have hunbroken := unbroken_of_mem hphys hmem
      rw [target_apply] at hunbroken
      rw [listStorageFiles_eq hroot (unbroken_apply hl fun key size heq _ => by
        cases heq
        exact hunbroken)] at hphys
      cases hphys
      obtain ⟨m, hmem⟩ := mem_keys_phys.mp hkey
      obtain ⟨-, hlisted, hvalid⟩ := mem_visible.mp hmem
      exact ⟨hlisted, hvalid, hunbroken⟩
    | missing => cases heq
    | wrongSize => cases heq
    | usage => cases heq
  · cases d <;> cases heq
    trivial

end Differences

/-- **When the check agrees with the backend.** In a consistent state the report is empty exactly if the script reads what
is there, and then it names exactly the differences whose objects are listed. -/
theorem reconcile_iff {py : Python} {low : LowerCase} {s : State} (h : Consistent low s) :
    (main py s = some [] ↔ Legible s) ∧
      ∀ d : Discrepancy, d.Applies s → (main py s = some [] ∧ Reports py (d.apply s) d ↔ Legible s ∧ d.Seen s) := by
  have hempty : main py s = some [] ↔ Legible s := ⟨legible_of_main h, main_of_legible h⟩
  refine ⟨hempty, fun d happlies => ?_⟩
  rw [hempty]
  exact and_congr_right fun hl => ⟨seen_of_reports h hl happlies, reports_of_seen h hl happlies⟩

/-! ## One file -/

/-- Numbers without signs, and strings by their units. -/
def unitPython : Python where
  int text :=
    if text ≠ [] ∧ text.all fun c => 0x30 ≤ c && c ≤ 0x39 then
      some (Nat.ofDigitChars 10 (text.map fun c => Char.ofNat c.toNat) 0)
    else none
  less a b := a.lex b fun c d => c < d
  int_decimal n := by
    have hdigits : ((decimal n).all fun c => 0x30 ≤ c && c ≤ 0x39) = true := by
      simpa only [List.all_eq_true, Bool.and_eq_true, decide_eq_true_eq] using fun c hc => mem_decimal (n := n) hc
    rw [if_pos ⟨(component_decimal n).ne_nil, hdigits⟩, NumberedNames.map_decimal, Nat.ofDigitChars_ten_toDigits]

/-- The key of the upload `Report.PDF` of the first user. -/
def reportKey : JsString :=
  objectKey 1 (finalName asciiLowerCase someSuffix.val (DbText.ofJs (ascii "Report.PDF")).val)

/-- The state after an upload of three bytes, or after it was put into the trash. -/
def oneFile (isDeleted : Bool) : State where
  target := ascii "/storage"
  files := [⟨false, isDeleted, 3, 1, some (fullPath (ascii "/storage") reportKey), some reportKey, true⟩]
  users := [⟨1, 3⟩]
  objects := [(reportKey, 3)]

theorem consistent_oneFile (isDeleted : Bool) : Consistent asciiLowerCase (oneFile isDeleted) where
  root := rfl
  carriage := show 0x0D ∉ ascii "/storage" by decide
  users := List.nodup_singleton 1
  objects := List.nodup_singleton reportKey
  distinct := List.nodup_singleton (some reportKey)
  owned row hrow := by
    cases List.mem_singleton.mp hrow
    exact ⟨⟨1, 3⟩, List.mem_cons_self, rfl⟩
  placed row hrow _ := by
    cases List.mem_singleton.mp hrow
    exact ⟨reportKey, rfl, stored_finalName emptyDisk_serves (by decide) (by decide) someSuffix, rfl, rfl,
      List.mem_cons_self⟩
  held object hobject := by
    cases List.mem_singleton.mp hobject
    exact .inr ⟨_, List.mem_cons_self, rfl, rfl⟩
  counted user huser := by
    cases List.mem_singleton.mp huser
    cases isDeleted <;> rfl

theorem reconcile_iff_of_missing :
    main unitPython (oneFile false) = some [] ∧
      Reports unitPython (Discrepancy.apply (oneFile false) (.missing reportKey 1 3)) (.missing reportKey 1 3) := by
  have happlies : (Discrepancy.missing reportKey 1 3).Applies (oneFile false) := ⟨_, List.mem_cons_self, rfl, rfl, rfl, rfl⟩
  have hseen : found (ascii "/storage") reportKey = true := by decide
  refine ((reconcile_iff (consistent_oneFile false)).2 _ happlies).mpr ⟨?_, hseen⟩
  refine ⟨fun object hobject _ => ?_, fun row hrow _ _ key hkey => ?_, fun row hrow _ hdeleted => ?_⟩
  · cases List.mem_singleton.mp hobject
    decide
  · cases List.mem_singleton.mp hrow
    cases hkey
    decide
  · cases List.mem_singleton.mp hrow
    cases hdeleted

/-- **A file in the trash** is reported in a consistent state, as an object without a row and with its bytes. -/
theorem report_of_trash : Consistent asciiLowerCase (oneFile true) ∧
    main unitPython (oneFile true) = some [.orphan reportKey 3, .usageDrift (ascii "1") 0 3] :=
  ⟨consistent_oneFile true, by decide +kernel⟩

end Reconcile

end HomeCloud
