import DocGraph.Proofs.Tree.Location

/-!
# DocGraph.Proofs.Tree.Replace

A file whose content changes.

* `node?_put`      — nothing but what is put becomes another node.
* `locate?_put_file` — every path leads where it led.
* `read?_put_file` — what a path reads.
-/

namespace DocGraph
namespace Tree

variable {t : Tree} {loc : Location} {content content' : ByteArray}

theorem not_prefix_of_isDirectoryAt (h : t.isDirectoryAt loc = false) :
    ¬loc.isPrefixOf t.workdir := by
  intro hprefix
  rw [isDirectoryAt, node?, if_pos hprefix] at h
  cases h

theorem node?_put (hdir : t.isDirectoryAt loc.dropLast = true) (h : t.isDirectoryAt loc = false)
    (n : Node) (loc' : Location) :
    (t.put loc n).node? loc' = if loc' = loc then some n else t.node? loc' := by
  have hbelow := not_prefix_of_isDirectoryAt h
  rw [node?, node?, workdir_put, nodes_put hdir (.inr h), SortedBy.find?_put]
  by_cases hloc : loc' = loc
  · subst hloc
    rw [if_pos rfl, if_neg hbelow]
    simp
  · have hkey : ¬loc = loc' := fun h => hloc h.symm
    rw [if_neg hloc]
    simp [hkey]

theorem node?_put_file (h : t.node? loc = some (.file content)) (loc' : Location) :
    (t.put loc (.file content')).node? loc' =
      if loc' = loc then some (.file content') else t.node? loc' := by
  have hfile : t.isDirectoryAt loc = false := by
    rw [isDirectoryAt, h]
    rfl
  exact node?_put (isDirectoryAt_dropLast (by rw [h]; rfl)) hfile _ loc'

theorem isDirectoryAt_put_file (h : t.node? loc = some (.file content)) (loc' : Location) :
    (t.put loc (.file content')).isDirectoryAt loc' = t.isDirectoryAt loc' := by
  rw [isDirectoryAt, isDirectoryAt, node?_put_file h]
  split
  · next hloc =>
    rw [hloc, h]
    rfl
  · rfl

theorem isSome_node?_put_file (h : t.node? loc = some (.file content)) (loc' : Location) :
    ((t.put loc (.file content')).node? loc').isSome = (t.node? loc').isSome := by
  rw [node?_put_file h]
  split
  · next hloc =>
    rw [hloc, h]
    rfl
  · rfl

theorem enter?_put_file (h : t.node? loc = some (.file content)) :
    (t.put loc (.file content')).enter? = t.enter? := by
  funext dir piece
  rw [enter?, enter?, isDirectoryAt_put_file h]
  simp only [isSome_node?_put_file h]

theorem locate?_put_file (h : t.node? loc = some (.file content)) (path : Path) :
    (t.put loc (.file content')).locate? path = t.locate? path := by
  rw [locate?, locate?, enter?_put_file h, admits, admits, longest_put, start, start, workdir_put]

theorem read?_put_file (h : t.node? loc = some (.file content)) (path : Path) :
    (t.put loc (.file content')).read? path =
      if t.locate? path = some loc then some content' else t.read? path := by
  rw [read?, read?, at?, at?, locate?_put_file h]
  cases hpath : t.locate? path with
  | none => rfl
  | some loc' =>
    rw [Option.bind_some, Option.bind_some, node?_put_file h]
    by_cases hloc : loc' = loc
    · rw [if_pos hloc, if_pos (congrArg some hloc)]
    · rw [if_neg hloc, if_neg fun h => hloc (Option.some.inj h)]

theorem read?_of_locate? (h : t.node? loc = some (.file content)) {path : Path}
    (hpath : t.locate? path = some loc) : t.read? path = some content := by
  rw [read?, at?, hpath, Option.bind_some, h]

end Tree
end DocGraph
