import KernelMemory.Proofs.Linked.Rising

/-!
# Balancing along links

A rotation edits up to four nodes one link at a time, and between the edits the links draw
no tree at all. Before and after, they do, and then the rotation of links is the rotation of
the drawn tree. From this on, everything is said of drawings: settling a node is
`Tree.restore` at its place, with a record of the case if there is one, and the walk that
settles node after node upwards, until one comes out as high as it was, is the climb along
the path.

That the children exist which a rotation needs follows from the stored heights alone; the
tree does not have to be balanced for it.
-/

namespace KernelMemory

namespace Linked

variable {α ε : Type} {x : Linked α} {id y : Handle} {v w : α} {path : Path α}
variable {a b c : Tree α} {height height' : Nat}

/-- The edges of a rotation, moved one link at a time; all heights stay as they are. -/
def turn (side : Side) (id : Handle) : LinkedOperation ε α Handle := do
  let raised ← childOf id side.other
  let between := (← resolve raised).child side
  let parent := (← resolve id).parent
  alter id fun n => n.withChild side.other between
  adopt between (some id)
  alter raised fun n => n.withChild side (some id)
  alter id fun n => { n with parent := some raised }
  alter raised fun n => { n with parent := parent }
  replaceChild parent id (some raised)
  return raised

theorem rotate_eq_turn (side : Side) (id : Handle) :
    (rotate side id : LinkedOperation ε α _) = do
      let raised ← turn side id
      updateHeight id
      updateHeight raised
      return raised := by
  simp only [rotate, turn, bind_assoc, pure_bind]

/-- Turning moves three edges: the one to the subtree between, the one between the two nodes
and the one from above. -/
theorem outcome_turn (side : Side) (path : Path α)
    (hn : (path.plug (side.node a id v height (side.node b y w height' c))).handles.Nodup)
    (h : x.Shows (path.plug (side.node a id v height (side.node b y w height' c)))) :
    ∃ x', (turn side id : LinkedOperation ε α _).outcome x = (.ok y, x') ∧
      x'.Shows (path.plug (side.node (side.node a id v height b) y w height' c)) := by
  obtain ⟨hdraws, hpath⟩ := shows_plug_iff.mp h
  rw [draws_node_iff, Side.root?_node, draws_node_iff] at hdraws
  rw [Side.root?_node] at hpath
  obtain ⟨hid, ha, hy, hb, hc⟩ := hdraws
  have hdistinct := Path.nodup_plug_iff.mp hn
  simp only [Side.nodup_handles_node, Side.mem_handles_node] at hdistinct
  obtain ⟨hnode, hpathn, hdisjoint⟩ := hdistinct
  -- the subtree between goes over to `id`
  let x₁ := x.put id (side.linked (path.parent none) a.root? b.root? height v)
  have h₁ : ∀ k, k ≠ id → x₁.node? k = x.node? k := fun k hk => node?_put_of_ne hid _ hk
  obtain ⟨x₂, hadopt, hroot₂, hb₂, h₂⟩ :=
    outcome_adopt (ε := ε) (hb.put hid (by grind) _) (by grind) (some id)
  have hid₂ : x₂.node? id =
      some (side.linked (path.parent none) a.root? b.root? height v) := by
    rw [h₂ id (by grind)]
    exact node?_put_self hid _
  have hy₂ : x₂.node? y = some (side.linked (some id) b.root? c.root? height' w) := by
    rw [h₂ y (by grind), h₁ y (by grind), hy]
  -- then `id` goes under `y`, and `y` under what was above `id`
  let x₃ := x₂.put y (side.linked (some id) (some id) c.root? height' w)
  have h₃ : ∀ k, k ≠ y → x₃.node? k = x₂.node? k := fun k hk => node?_put_of_ne hy₂ _ hk
  have hid₃ := (h₃ id (by grind)).trans hid₂
  let x₄ := x₃.put id (side.linked (some y) a.root? b.root? height v)
  have h₄ : ∀ k, k ≠ id → x₄.node? k = x₃.node? k := fun k hk => node?_put_of_ne hid₃ _ hk
  have hy₄ : x₄.node? y = some (side.linked (some id) (some id) c.root? height' w) :=
    (h₄ y (by grind)).trans (node?_put_self hy₂ _)
  let x₅ := x₄.put y (side.linked (path.parent none) (some id) c.root? height' w)
  have h₅ : ∀ k, k ≠ y → x₅.node? k = x₄.node? k := fun k hk => node?_put_of_ne hy₄ _ hk
  have hsame : ∀ k, k ≠ id → k ≠ y → k ∉ b.handles → x₅.node? k = x.node? k := by
    intro k hki hky hkb
    rw [h₅ k hky, h₄ k hki, h₃ k hky, h₂ k hkb, h₁ k hki]
  have hb₅ : x₅.Draws (some id) b := hb₂.congr fun k hk => by
    rw [h₅ k (by grind), h₄ k (by grind), h₃ k (by grind)]
  have hpath₅ : x₅.Leads path (some id) :=
    hpath.congr hroot₂ fun k hk => hsame k (by grind) (by grind) (by grind)
  obtain ⟨x₆, hreplace, ⟨hpath₆, h₆⟩⟩ :=
    outcome_replaceChild (ε := ε) hpath₅ (by grind) hpathn (some y)
  refine ⟨x₆, ?_, ?_⟩
  · rw [turn, Operation.outcome_bind_ok (outcome_childOf (c := y) hid (by simp)),
      Operation.outcome_bind_ok (outcome_resolve hy),
      Operation.outcome_bind_ok (outcome_resolve hid),
      Operation.outcome_bind_ok (outcome_alter hid _)]
    simp only [Side.child_linked, Side.withChild_other_linked, Side.parent_linked]
    rw [Operation.outcome_bind_ok hadopt,
      Operation.outcome_bind_ok (outcome_alter hy₂ _)]
    simp only [Side.withChild_linked]
    rw [Operation.outcome_bind_ok (outcome_alter hid₃ _)]
    simp only [Side.with_parent_linked]
    rw [Operation.outcome_bind_ok (outcome_alter hy₄ _)]
    simp only [Side.with_parent_linked]
    rw [Operation.outcome_bind_ok hreplace, Operation.outcome_pure]
  · rw [shows_plug_iff, draws_node_iff, draws_node_iff, Side.root?_node, Side.root?_node]
    refine ⟨⟨?_, ⟨?_, ?_, ?_⟩, ?_⟩, hpath₆⟩
    · rw [h₆ y (by grind)]
      exact node?_put_self hy₄ _
    · rw [h₆ id (by grind), h₅ id (by grind)]
      exact node?_put_self hid₃ _
    · exact ha.congr fun k hk => by
        rw [h₆ k (by grind), hsame k (by grind) (by grind) (by grind)]
    · exact hb₅.congr fun k hk => h₆ k (by grind)
    · exact hc.congr fun k hk => by
        rw [h₆ k (by grind), hsame k (by grind) (by grind) (by grind)]

/-- Rotating turns two nodes and gives first the lower and then the upper one the height that
its sides make. -/
theorem outcome_rotate (side : Side) (path : Path α)
    (hn : (path.plug (side.node a id v height (side.node b y w height' c))).handles.Nodup)
    (h : x.Shows (path.plug (side.node a id v height (side.node b y w height' c)))) :
    ∃ x', (rotate side id : LinkedOperation ε α _).outcome x = (.ok y, x') ∧
      x'.Shows (path.plug (side.join (side.join a id v b) y w c)) := by
  obtain ⟨x₁, hturn, hshows₁⟩ := outcome_turn (ε := ε) side path hn h
  have hn₁ : ∀ k, (path.plug (side.node (side.node a id v k b) y w height' c)).handles.Nodup :=
    fun k => path.nodup_plug_congr (side.toList_turn ..) hn
  obtain ⟨x₂, hlower, hshows₂⟩ := outcome_updateHeight_node (ε := ε) side
    (⟨side, y, w, height', c⟩ :: path) (hn₁ height) hshows₁
  obtain ⟨x₃, hupper, hshows₃⟩ :=
    outcome_updateHeight_node (ε := ε) side path (hn₁ _) hshows₂
  refine ⟨x₃, ?_, hshows₃⟩
  rw [rotate_eq_turn, Operation.outcome_bind_ok hturn, Operation.outcome_bind_ok hlower,
    Operation.outcome_bind_ok hupper, Operation.outcome_pure]

/-- The same with the child that is lifted named first. -/
theorem outcome_rotate_other (side : Side) (path : Path α)
    (hn : (path.plug (side.node (side.node a y w height' b) id v height c)).handles.Nodup)
    (h : x.Shows (path.plug (side.node (side.node a y w height' b) id v height c))) :
    ∃ x', (rotate side.other id : LinkedOperation ε α _).outcome x = (.ok y, x') ∧
      x'.Shows (path.plug (side.other.join (side.other.join c id v b) y w a)) := by
  rw [← Side.node_other side c, ← Side.node_other side b] at hn h
  exact outcome_rotate side.other path hn h

/-- Lowering a node takes one rotation, or one more of its higher child before. -/
theorem run_lower (side : Side) {heavy light : Tree α}
    (hn : (path.plug (side.node heavy id v height light)).handles.Nodup)
    (h : x.Shows (path.plug (side.node heavy id v height light))) (hheavy : 0 < heavy.height) :
    ∃ x' top, (lower side id : LinkedOperation ε α _).run x =
        ⟨.ok top, x', [(side.lowerCase heavy).record id]⟩ ∧
      x'.Shows (path.plug (side.lower heavy id v light)) ∧
      (side.lower heavy id v light).root? = some top := by
  obtain ⟨outer, y, w, height', inner, rfl⟩ := side.exists_node_of_height_pos hheavy
  have hdraws := (shows_plug_iff.mp h).1
  rw [draws_node_iff, Side.root?_node] at hdraws
  obtain ⟨hid, hy, -⟩ := hdraws
  rw [lower, (quiet_childOf id side).run_bind_ok (outcome_childOf (c := y) hid (by simp)),
    (quiet_balance y).run_bind_ok (outcome_balance hy (by simp)), Operation.run_bind,
    Operation.run_note]
  by_cases hinner : side.lean (side.node outer y w height' inner).balance < 0
  · rw [Side.lower_of_inner hinner, Side.lowerCase]
    simp only [if_pos hinner]
    rw [Side.lean_balance_node] at hinner
    obtain ⟨d, z, u, k, e, rfl⟩ := side.exists_node_of_height_pos (t := inner) (by omega)
    let place : Path α := ⟨side, id, v, height, light⟩ :: path
    obtain ⟨x₁, hfirst, hshows₁⟩ := outcome_rotate (ε := ε) side place hn h
    have hn₁ := Path.nodup_plug_congr place (side.toList_rotate _) hn
    rw [Side.rotate_node] at hn₁ ⊢
    obtain ⟨x₂, hsecond, hshows₂⟩ := outcome_rotate_other (ε := ε) side path hn₁ hshows₁
    refine ⟨x₂, z, ?_, ?_, ?_⟩
    · rw [(quiet_rotate y side).run_bind_ok hfirst, (quiet_rotate id side.other).run_eq hsecond]
      rfl
    · rw [Side.join, Side.join, Side.rotate_other_node]
      exact hshows₂
    · rw [Side.join, Side.join, Side.rotate_other_node, Side.join, Side.root?_node]
  · rw [Side.lower_of_outer hinner, Side.lowerCase, Side.join, Side.rotate_other_node]
    simp only [if_neg hinner]
    obtain ⟨x', hrotate, hshows⟩ := outcome_rotate_other (ε := ε) side path hn h
    refine ⟨x', y, ?_, hshows, by rw [Side.join, Side.root?_node]⟩
    rw [(quiet_rotate id side.other).run_eq hrotate]
    rfl

/-- Settling a node restores the balance at its place. -/
theorem run_settle {left right : Tree α} {was : Nat}
    (hn : (path.plug (.node left id v was right)).handles.Nodup)
    (h : x.Shows (path.plug (.node left id v was right))) :
    ∃ x' top, (settle id : LinkedOperation ε α _).run x =
        ⟨.ok top, x', (Side.left.restoreCase left right).toList.map (·.record id)⟩ ∧
      x'.Shows (path.plug (Tree.restore left id v was right).tree) ∧
      (Tree.restore left id v was right).tree.root? = some top := by
  obtain ⟨x₁, hupdate, hshows₁⟩ := outcome_updateHeight (ε := ε) hn h
  have hn₁ : (path.plug (.join left id v right)).handles.Nodup :=
    path.nodup_plug_congr (t := .node left id v was right) rfl hn
  have hdraws := (shows_plug_iff.mp hshows₁).1
  rw [settle, (quiet_updateHeight id).run_bind_ok hupdate,
    (quiet_balance id).run_bind_ok (outcome_balance hdraws rfl), Side.tree_restore,
    ← Side.restoreCase_other .left, Side.restoreCase]
  have hbalance : (Tree.join left id v right).balance = (right.height : Int) - left.height := rfl
  rw [hbalance]
  by_cases hright : left.height + 1 < right.height
  · rw [if_pos (by omega), if_pos hright, if_pos hright]
    exact run_lower .right hn₁ hshows₁ (by omega)
  · rw [if_neg (by omega), if_neg hright, if_neg hright]
    by_cases hleft : right.height + 1 < left.height
    · rw [if_pos (by omega), if_pos hleft, if_pos hleft]
      exact run_lower .left hn₁ hshows₁ (by omega)
    · rw [if_neg (by omega), if_neg hleft, if_neg hleft]
      exact ⟨x₁, id, rfl, hshows₁, rfl⟩

/-- The node above a place is settled, over whatever the place has come to hold. -/
theorem exists_settled (f : Frame α) {t : Tree α}
    (hn : (path.plug (f.fill t)).handles.Nodup) (h : x.Shows (path.plug (f.fill t))) :
    ∃ x', x.Settled (f.settling t) x' ∧
      x'.Shows (path.plug (f.side.restore t f.handle f.value f.height f.sibling).tree) ∧
      x'.parent? (f.settling t).top = path.parent none := by
  have hbefore : (x.node? f.handle).map LinkedNode.height = some f.height := by
    obtain ⟨n, hn, -, hheight⟩ := (shows_plug_iff.mp h).1.exists_root (Side.root?_node ..)
    rw [hn, Option.map_some, hheight, Frame.height_fill]
  obtain ⟨x', top, hrun, hshows, htop⟩ : ∃ x' top,
      (settle f.handle : LinkedOperation IndexError α _).run x =
        ⟨.ok top, x', (f.side.restoreCase t f.sibling).toList.map (·.record f.handle)⟩ ∧
      x'.Shows (path.plug (f.side.restore t f.handle f.value f.height f.sibling).tree) ∧
      (f.side.restore t f.handle f.value f.height f.sibling).tree.root? = some top := by
    rcases f with ⟨side, y, w, height, sibling⟩
    cases side with
    | left => exact run_settle hn h
    | right =>
        have hcase : Side.right.restoreCase t sibling = Side.left.restoreCase sibling t :=
          Side.restoreCase_other .left sibling t
        rw [hcase]
        exact run_settle hn h
  obtain ⟨n, hnode, hparent, hheight⟩ := (shows_plug_iff.mp hshows).1.exists_root htop
  have hsettled : (f.settling t).top = top := by rw [Frame.settling, htop]; rfl
  refine ⟨x', ⟨hbefore, ?_, ?_⟩, hshows, ?_⟩
  · rw [hsettled]
    exact hrun
  · rw [hsettled, hnode, Option.map_some, hheight]
    rfl
  · rw [hsettled, parent?, hnode]
    exact hparent

/-- The walk upwards is the climb along the path, by induction on it. -/
theorem exists_rises {c : Change α} (hc : c.climbs = true)
    (hn : (path.plug c.tree).handles.Nodup) (h : x.Shows (path.plug c.tree)) :
    ∃ x', x.Rises (path.parent none) (path.settlings c) x' ∧ x'.Shows (path.climb c).tree := by
  induction path generalizing x c with
  | nil => exact ⟨x, .top x, h⟩
  | cons f path ih =>
      obtain ⟨htree, hclimbs⟩ := f.tree_onto_of_climbs hc
      obtain ⟨x₁, hsettled, hshows₁, hup⟩ := exists_settled f hn h
      rw [← htree] at hshows₁
      have hn₁ : (Path.plug path (f.onto c).tree).handles.Nodup :=
        Path.nodup_plug_congr path (t := f.fill c.tree)
          (by rw [Frame.toList_onto, Frame.toList_fill]) hn
      have hafter : (f.settling c.tree).after = (f.onto c).tree.height := by rw [htree]; rfl
      rw [← hafter] at hclimbs
      rw [Path.settlings]
      by_cases hsame : (f.settling c.tree).after = f.height
      · have hends : (f.onto c).climbs = false := by rw [hclimbs, hsame]; simp
        rw [hends]
        refine ⟨x₁, .ends hsettled hsame, ?_⟩
        rw [Path.climb, Path.climb_of_not_climbs path hends]
        exact hshows₁
      · have hgoes : (f.onto c).climbs = true := by rw [hclimbs]; simpa using hsame
        rw [hgoes]
        obtain ⟨x', hrises, hshows'⟩ := ih hgoes hn₁ hshows₁
        exact ⟨x', .goesOn hsettled hsame (hup ▸ hrises), hshows'⟩

end Linked

end KernelMemory
