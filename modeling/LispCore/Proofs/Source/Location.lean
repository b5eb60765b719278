import LispCore.FileTree

/-!
Where paths lead.

A location is a run of names, from the top of a tree to an entry of an entry. The names of a path
lead from location to location, down to an entry or up from a directory, and what a path leads to is
what stands at the last one.

* `FileSystem.find?_eq_some_iff`, `FileSystem.isFile_iff` — what is found is what a path leads to;
* `FileTree.adds_insert` — a file that is put into a directory is new at its location and leaves
  everything else where it is;
* `FileTree.Adds.leads`, `FileTree.Adds.leads_or` — after that a path leads to where it did before,
  or to the new file;
* `FileSystem.isFile_adding` — the paths of files are those from before and those of the new one.
-/

namespace LispCore

namespace FileTree

/-! ### Locations -/

/-- What stands at a location. -/
def node? (tree : FileTree) (loc : List String) : Option FileTree :=
  loc.foldlM (fun node name => node.child? name) tree

variable {tree tree' node child : FileTree} {above : List FileTree}
  {loc loc' names new : List String} {name : String} {entries : List (String × FileTree)} {bytes : ByteArray}

theorem node?_nil : tree.node? [] = some tree := rfl

theorem node?_cons : tree.node? (name :: loc) = (tree.child? name).bind (·.node? loc) := rfl

theorem node?_append : tree.node? (loc ++ loc') = (tree.node? loc).bind (·.node? loc') :=
  List.foldlM_append ..

theorem node?_snoc : tree.node? (loc ++ [name]) = (tree.node? loc).bind (·.child? name) := by
  rw [node?_append]
  cases tree.node? loc with
  | none => rfl
  | some node => exact Option.bind_fun_some (node.child? name)

/-- Below a file there is nothing. -/
theorem node?_append_file (h : tree.node? loc = some (.file bytes)) :
    tree.node? (loc ++ name :: names) = none := by
  rw [node?_append, h]
  rfl

/-- `tree.Leads loc names loc'`: from a location some names lead to another. -/
inductive Leads (tree : FileTree) : List String → List String → List String → Prop where
  | here {loc : List String} : Leads tree loc [] loc
  | up {loc names loc' : List String} {entries : List (String × FileTree)} :
      tree.node? loc = some (.directory entries) → Leads tree loc.dropLast names loc' →
      Leads tree loc (".." :: names) loc'
  | down {loc names loc' : List String} {name : String} {child : FileTree} : name ≠ ".." →
      tree.node? (loc ++ [name]) = some child → Leads tree (loc ++ [name]) names loc' →
      Leads tree loc (name :: names) loc'

/-- From a file there is no way to anywhere else. -/
theorem Leads.eq_of_file (h : tree.Leads loc names loc')
    (hfile : tree.node? loc = some (.file bytes)) : loc' = loc := by
  cases h with
  | here => rfl
  | up hdirectory => rw [hfile] at hdirectory; cases hdirectory
  | down _ hchild => rw [node?_append_file hfile] at hchild; cases hchild

/-! ### Walks -/

theorem walk_up_top : walk [] (directory entries) (".." :: names) =
    walk [] (directory entries) names := by
  rw [walk.eq_def]
  rfl

theorem walk_up : walk (tree :: above) (directory entries) (".." :: names) =
    walk above tree names := by
  rw [walk.eq_def]
  rfl

theorem walk_down (h : name ≠ "..") : walk above (directory entries) (name :: names) =
    ((directory entries).child? name).bind (walk (directory entries :: above) · names) := by
  rw [walk.eq_def, child?]
  dsimp only
  rw [if_neg h]
  cases entries.find? (·.1 == name) with
  | none => rfl
  | some found => rfl

/-- `tree.Stands loc above node`: a node stands at a location, below the nodes on the way to it. -/
inductive Stands (tree : FileTree) : List String → List FileTree → FileTree → Prop where
  | top : Stands tree [] [] tree
  | entry {loc : List String} {above : List FileTree} {node child : FileTree} {name : String} :
      Stands tree loc above node → node.child? name = some child →
      Stands tree (loc ++ [name]) (node :: above) child

theorem Stands.node?_eq (h : tree.Stands loc above node) : tree.node? loc = some node := by
  induction h with
  | top => rfl
  | entry _ hentry ih => rwa [node?_snoc, ih]

/-- The node above stands at the location above. -/
theorem Stands.parent {parent : FileTree} (h : tree.Stands loc (parent :: above) node) :
    tree.Stands loc.dropLast above parent := by
  cases h with
  | entry h => rwa [List.dropLast_concat]

theorem Stands.eq_nil (h : tree.Stands loc [] node) : loc = [] := by
  cases h
  rfl

/-- **A walk goes where the names lead.** -/
theorem Stands.walk_eq_some {above' : List FileTree} {node' : FileTree}
    (h : tree.Stands loc above node) (hwalk : walk above node names = some (above', node')) :
    ∃ loc', tree.Leads loc names loc' ∧ tree.Stands loc' above' node' := by
  induction names generalizing loc above node with
  | nil =>
    cases hwalk
    exact ⟨loc, .here, h⟩
  | cons name names ih =>
    cases node with
    | file contents => cases hwalk
    | directory entries =>
      by_cases hup : name = ".."
      · subst hup
        cases above with
        | nil =>
          have hloc := h.eq_nil
          subst hloc
          rw [walk_up_top] at hwalk
          obtain ⟨loc', hleads, hstands⟩ := ih h hwalk
          exact ⟨loc', .up h.node?_eq hleads, hstands⟩
        | cons parent above =>
          rw [walk_up] at hwalk
          obtain ⟨loc', hleads, hstands⟩ := ih h.parent hwalk
          exact ⟨loc', .up h.node?_eq hleads, hstands⟩
      · rw [walk_down hup] at hwalk
        obtain ⟨child, hentry, hwalk⟩ := Option.bind_eq_some_iff.mp hwalk
        have hchild := h.entry hentry
        obtain ⟨loc', hleads, hstands⟩ := ih hchild hwalk
        exact ⟨loc', .down hup hchild.node?_eq hleads, hstands⟩

/-- **Where names lead, a walk goes.** -/
theorem Leads.walk_eq_some (hleads : tree.Leads loc names loc') (h : tree.Stands loc above node) :
    ∃ above' node', walk above node names = some (above', node') ∧
      tree.Stands loc' above' node' := by
  induction hleads generalizing above node with
  | here => exact ⟨above, node, by cases node <;> rfl, h⟩
  | @up loc _ _ entries hdirectory _ ih =>
    obtain rfl : node = .directory entries := Option.some.inj (h.node?_eq.symm.trans hdirectory)
    cases above with
    | nil =>
      have hloc := h.eq_nil
      subst hloc
      rw [walk_up_top]
      exact ih h
    | cons parent above =>
      rw [walk_up]
      exact ih h.parent
  | @down loc _ _ name child hdown hchild _ ih =>
    rw [node?_snoc, h.node?_eq, Option.bind_some] at hchild
    cases node with
    | file contents => cases hchild
    | directory entries =>
      rw [walk_down hdown, hchild]
      exact ih (h.entry hchild)

/-! ### A new file -/

/-- The contents of a file; a directory has none. -/
def contents? : FileTree → Option ByteArray
  | file contents => some contents
  | directory _ => none

theorem contents?_eq_some_iff : node.contents? = some bytes ↔ node = .file bytes := by
  cases node <;> simp [contents?]

theorem contents?_eq_none_iff : node.contents? = none ↔ ∃ entries, node = .directory entries := by
  cases node <;> simp [contents?]

/-- `tree.Adds new bytes tree'`: a file is put where nothing was. At every other location there is
a directory as before, or a file with the same contents, or nothing. -/
structure Adds (tree : FileTree) (new : List String) (bytes : ByteArray) (tree' : FileTree) :
    Prop where
  absent : tree.node? new = none
  present : tree'.node? new = some (.file bytes)
  others : ∀ loc ≠ new, (tree'.node? loc).map contents? = (tree.node? loc).map contents?

/-- What is in a directory after a node was put into it. -/
theorem child?_insert (name' : String) :
    (insert node (name :: names) (directory entries)).child? name' =
      if name' = name then
        some (insert node names (((directory entries).child? name).getD (directory [])))
      else (directory entries).child? name' := by
  simp only [insert, child?]
  generalize insert node names _ = child
  by_cases hany : entries.any (·.1 == name) = true
  · rw [if_pos hany]
    simp only [List.find?_map, Option.map_map]
    have hfind :
        entries.find? ((·.1 == name') ∘ fun x => (x.1, if x.1 == name then child else x.2)) =
          entries.find? (·.1 == name') := rfl
    rw [hfind]
    cases hfound : entries.find? (·.1 == name') with
    | none =>
      have hne : name' ≠ name := by
        rintro rfl
        obtain ⟨x, hx, hname⟩ := List.any_eq_true.mp hany
        exact List.find?_eq_none.mp hfound x hx hname
      rw [if_neg hne]
      rfl
    | some found =>
      have hname : found.1 = name' := beq_iff_eq.mp (List.find?_some hfound :)
      subst hname
      by_cases heq : found.1 = name <;> simp [heq]
  · rw [if_neg hany]
    simp only [List.find?_append]
    by_cases heq : name' = name
    · subst heq
      have hnone : entries.find? (·.1 == name') = none := by
        refine List.find?_eq_none.mpr fun x hx hname => hany ?_
        exact List.any_eq_true.mpr ⟨x, hx, hname⟩
      simp [hnone]
    · have hne : name ≠ name' := Ne.symm heq
      simp [heq, hne]

theorem node?_insert {name' : String} :
    (insert node (name :: names) (directory entries)).node? (name' :: loc) =
      if name' = name then
        (insert node names (((directory entries).child? name).getD (directory []))).node? loc
      else (directory entries).node? (name' :: loc) := by
  rw [node?_cons, child?_insert]
  split <;> rfl

/-- A directory stays one. -/
theorem contents?_insert :
    (insert node (name :: names) (directory entries)).contents? = none := by
  simp only [insert]
  split <;> rfl

/-- **A file that is put into a directory is new there**, and nothing else is. -/
theorem adds_insert {dir : List String} (hdir : tree.node? dir = some (directory entries))
    (hnew : tree.node? (dir ++ [name]) = none) (bytes : ByteArray) :
    tree.Adds (dir ++ [name]) bytes (insert (.file bytes) (dir ++ [name]) tree) := by
  induction dir generalizing tree with
  | nil =>
    obtain rfl : tree = directory entries := Option.some.inj hdir
    rw [List.nil_append] at hnew ⊢
    refine ⟨hnew, by rw [node?_insert, if_pos rfl]; rfl, ?_⟩
    intro loc hloc
    cases loc with
    | nil => rw [node?_nil, node?_nil, Option.map_some, Option.map_some, contents?_insert]; rfl
    | cons name' loc =>
      rw [node?_insert]
      split
      next heq =>
        subst heq
        cases loc with
        | nil => exact absurd rfl hloc
        | cons name'' loc =>
          -- Below the new file there is as little as there was.
          have hbelow : (directory entries).node? ([name'] ++ name'' :: loc) = none := by
            rw [node?_append, hnew]
            rfl
          exact congrArg (Option.map contents?) hbelow.symm
      next => rfl
  | cons first dir ih =>
    rw [node?_cons] at hdir
    obtain ⟨child, hentry, hchild_dir⟩ := Option.bind_eq_some_iff.mp hdir
    cases tree with
    | file contents => cases hentry
    | directory entries₀ =>
      have hchild (loc : List String) :
          (directory entries₀).node? (first :: loc) = child.node? loc := by
        rw [node?_cons, hentry, Option.bind_some]
      have hinsert (loc : List String) :
          (insert (.file bytes) (first :: (dir ++ [name])) (directory entries₀)).node?
            (first :: loc) = (insert (.file bytes) (dir ++ [name]) child).node? loc := by
        rw [node?_insert, if_pos rfl, hentry, Option.getD_some]
      rw [List.cons_append] at hnew ⊢
      have hadds := ih hchild_dir ((hchild _).symm.trans hnew)
      refine ⟨hnew, (hinsert _).trans hadds.present, ?_⟩
      intro loc hloc
      cases loc with
      | nil => rw [node?_nil, node?_nil, Option.map_some, Option.map_some, contents?_insert]; rfl
      | cons name' loc =>
        by_cases heq : name' = first
        · subst heq
          rw [hinsert, hchild]
          exact hadds.others loc fun h => hloc (congrArg (name' :: ·) h)
        · rw [node?_insert, if_neg heq]

namespace Adds

/-- What stands somewhere else than the new file stood there before. -/
theorem stood (h : tree.Adds new bytes tree') (hloc : loc ≠ new)
    (hnode : tree'.node? loc = some node) :
    ∃ node', tree.node? loc = some node' ∧ node'.contents? = node.contents? := by
  have hothers := (h.others loc hloc).symm
  rw [hnode, Option.map_some] at hothers
  exact Option.map_eq_some_iff.mp hothers

/-- What stood somewhere before stands there still. -/
theorem stays (h : tree.Adds new bytes tree') (hnode : tree.node? loc = some node) :
    loc ≠ new ∧ ∃ node', tree'.node? loc = some node' ∧ node'.contents? = node.contents? := by
  have hloc : loc ≠ new := by
    rintro rfl
    rw [h.absent] at hnode
    cases hnode
  have hothers := h.others loc hloc
  rw [hnode, Option.map_some] at hothers
  exact ⟨hloc, Option.map_eq_some_iff.mp hothers⟩

/-- **Names lead to where they led before.** -/
theorem leads (h : tree.Adds new bytes tree') (hleads : tree.Leads loc names loc') :
    tree'.Leads loc names loc' := by
  induction hleads with
  | here => exact .here
  | up hdirectory _ ih =>
    obtain ⟨-, node, hnode, hcontents⟩ := h.stays hdirectory
    obtain ⟨entries', rfl⟩ := contents?_eq_none_iff.mp hcontents
    exact .up hnode ih
  | down hdown hchild _ ih =>
    obtain ⟨-, child', hchild', -⟩ := h.stays hchild
    exact .down hdown hchild' ih

/-- **Names lead to where they led before, or to the new file.** -/
theorem leads_or (h : tree.Adds new bytes tree') (hleads : tree'.Leads loc names loc') :
    tree.Leads loc names loc' ∨ loc' = new := by
  induction hleads with
  | here => exact .inl .here
  | @up loc _ _ _ hdirectory _ ih =>
    refine ih.imp_left fun ih => ?_
    have hloc : loc ≠ new := by
      rintro rfl
      rw [h.present] at hdirectory
      cases hdirectory
    obtain ⟨node, hnode, hcontents⟩ := h.stood hloc hdirectory
    obtain ⟨entries', rfl⟩ := contents?_eq_none_iff.mp hcontents
    exact .up hnode ih
  | @down loc _ _ name _ hdown hchild hrest ih =>
    by_cases hloc : loc ++ [name] = new
    · -- The new file is a dead end.
      subst hloc
      exact .inr (hrest.eq_of_file h.present)
    · refine ih.imp_left fun ih => ?_
      obtain ⟨child', hchild', -⟩ := h.stood hloc hchild
      exact .down hdown hchild' ih

end Adds

end FileTree

/-! ### Paths -/

namespace FileSystem

variable {fs : FileSystem} {p : Path} {loc new : List String} {node tree' : FileTree}
  {bytes : ByteArray}

/-- A path leads to a location, from the top or from the working directory. -/
def LeadsTo (fs : FileSystem) (p : Path) (loc : List String) : Prop :=
  fs.tree.Leads [] (fs.workingPath.join p).parts loc

/-- A path leads to a file with some contents. -/
def Holds (fs : FileSystem) (p : Path) (bytes : ByteArray) : Prop :=
  ∃ loc, fs.LeadsTo p loc ∧ fs.tree.node? loc = some (.file bytes)

/-- **What is found is what a path leads to.** -/
theorem find?_eq_some_iff :
    fs.find? p = some node ↔ ∃ loc, fs.LeadsTo p loc ∧ fs.tree.node? loc = some node := by
  rw [find?, Option.map_eq_some_iff]
  constructor
  · rintro ⟨⟨above, node'⟩, hwalk, rfl⟩
    obtain ⟨loc, hleads, hstands⟩ := FileTree.Stands.top.walk_eq_some hwalk
    exact ⟨loc, hleads, hstands.node?_eq⟩
  · rintro ⟨loc, hleads, hnode⟩
    obtain ⟨above, node', hwalk, hstands⟩ := FileTree.Leads.walk_eq_some hleads .top
    obtain rfl : node' = node := Option.some.inj (hstands.node?_eq.symm.trans hnode)
    exact ⟨_, hwalk, rfl⟩

theorem contents?_eq_some_iff : fs.contents? p = some bytes ↔ fs.Holds p bytes := by
  have hfind : fs.contents? p = some bytes ↔ fs.find? p = some (.file bytes) := by
    rw [contents?]
    cases fs.find? p with
    | none => simp
    | some node => cases node <;> simp
  exact hfind.trans find?_eq_some_iff

theorem isFile_iff : fs.isFile p = true ↔ ∃ bytes, fs.Holds p bytes := by
  rw [isFile, Option.isSome_iff_exists]
  simp only [contents?_eq_some_iff]

/-- **The paths of files are those from before and those of the new file.** -/
theorem isFile_adding (h : fs.tree.Adds new bytes tree') :
    ({ fs with tree := tree' } : FileSystem).isFile p = true ↔
      fs.isFile p = true ∨ ({ fs with tree := tree' } : FileSystem).LeadsTo p new := by
  rw [isFile_iff, isFile_iff]
  constructor
  · rintro ⟨contents, loc, hleads, hnode⟩
    obtain hbefore | rfl := h.leads_or hleads
    · by_cases hloc : loc = new
      · subst hloc
        exact .inr hleads
      · obtain ⟨node, hnode', hcontents⟩ := h.stood hloc hnode
        rw [FileTree.contents?_eq_some_iff.mp hcontents] at hnode'
        exact .inl ⟨contents, loc, hbefore, hnode'⟩
    · exact .inr hleads
  · rintro (⟨contents, loc, hleads, hnode⟩ | hleads)
    · obtain ⟨-, node, hnode', hcontents⟩ := h.stays hnode
      rw [FileTree.contents?_eq_some_iff.mp hcontents] at hnode'
      exact ⟨contents, loc, h.leads hleads, hnode'⟩
    · exact ⟨bytes, new, hleads, h.present⟩

end FileSystem

end LispCore
