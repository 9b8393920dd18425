import ChuSQL.Server.Acl.Reachable

/-! The stored grants and the grants that count. A grant recorded again under the same
key keeps its grant option but not its root flag, so a former administrator who
repeats a grant to themselves leaves a grant that nothing supports. -/

set_option autoImplicit false

namespace ChuSQL.Server.Acl

/-- The grants that count are the least set with the root grants and what owners and
grant options support. As long as no grant by an ordinary session takes the place of a
root grant, every stored grant counts, whatever is granted, revoked, joined or dropped. -/
theorem effective_grants_supported (env : Context) (acl : ACL) (start world : World) :
    IsLeast {edges | Closed env acl edges} {edge | edge ∈ (effective env acl).edges} ∧
    (∀ edge ∈ (effective env acl).edges,
      ∃ last chain, (edge :: chain).getLast? = some last ∧ Rooted env acl last ∧
        (∀ link ∈ edge :: chain, link ∈ (effective env acl).edges) ∧
        (edge :: chain).IsChain fun granted source =>
          env.active granted.grantor = true ∧ Supports env source granted) ∧
    effective env (effective env acl) = effective env acl ∧
    (∀ other, acl.edges.Perm other.edges → acl.owners = other.owners →
      (effective env acl).edges.Perm (effective env other).edges) ∧
    (Sound start → Stable start.context start.acl →
      Reached (fun world client command => ¬ReplacesRoot world client.principal command) start world →
      (effective world.context world.acl).edges.Perm world.acl.edges) := by
  refine ⟨effective_least, fun _ member => exists_chain member, effective_idempotent env acl, ?_, ?_⟩
  · exact fun _ edges owners => effective_perm edges owners
  · exact fun sound stable reached => (reached_stable sound stable reached).perm

/-- Two administrators and a database with one table. -/
def shop : World where
  identities := [⟨1, "admin", true, true, true, false, 1⟩, ⟨2, "ann", true, true, true, false, 1⟩]
  identityHighWater := 2
  members := []
  databases := [⟨1, "shop", [("items", 1)], 1⟩]
  objectHighWater := 1
  acl := ⟨[], [], [], []⟩

theorem shop_sound : Sound shop := by
  refine ⟨⟨by decide, by decide, ?_⟩, rfl, ⟨?_, ?_, ?_⟩⟩
  · intro database member
    rw [List.mem_singleton.mp member]
    exact ⟨by decide, by decide⟩
  · exact fun edge member => by cases member
  · exact fun owner member => by cases member
  · exact fun owner member => by cases member

theorem shop_stable : Stable shop.context shop.acl := fun edge member => by cases member

def grantItems : Command := .grant ["select"] (.table "shop" "items") "ann" true

theorem effective_grants_supported_shop :
    (effective (run shop [(⟨.root "ann", 2, 1⟩, grantItems)]).context
      (run shop [(⟨.root "ann", 2, 1⟩, grantItems)]).acl).edges.Perm
        (run shop [(⟨.root "ann", 2, 1⟩, grantItems)]).acl.edges := by
  refine (effective_grants_supported shop.context shop.acl shop _).2.2.2.2 shop_sound shop_stable
    (.step _ _ .start ?_)
  rintro ⟨ordinary, _⟩
  cases ordinary

/-- Ann grants herself the table as an administrator, is demoted, and repeats the grant. -/
def demotion : List (Client × Command) :=
  [(⟨.root "ann", 2, 1⟩, grantItems),
    (⟨.root "admin", 1, 1⟩, .account (.alter "ann" [("superuser", false)])),
    (⟨.ordinary ⟨2, "ann", true, false, true, false, 2⟩, 2, 2⟩, grantItems)]

/-- The grant is stored but no longer counts: its only source is itself. -/
theorem repeated_grant_unsupported : Sound shop ∧ Stable shop.context shop.acl ∧
    signIn (run shop (demotion.take 2)) "ann" = .ok ⟨.ordinary ⟨2, "ann", true, false, true, false, 2⟩, 2, 2⟩ ∧
    (step (run shop (demotion.take 2)) ⟨.ordinary ⟨2, "ann", true, false, true, false, 2⟩, 2, 2⟩ grantItems).1 = .ok () ∧
    (run shop demotion).acl.edges.length = 1 ∧
    ¬(effective (run shop demotion).context (run shop demotion).acl).edges.Perm (run shop demotion).acl.edges := by
  refine ⟨shop_sound, shop_stable, ?_⟩
  decide +kernel

end ChuSQL.Server.Acl
