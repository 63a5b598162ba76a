import UltimateCaManager.Permissions

/-!
# API keys

`verify_api_key` binds the scopes that were stored with a key to what its owner may do now: the key
narrows the permissions of its owner and never widens them.
-/
namespace UltimateCaManager.Auth

open List

/-- `permissions` is what the stored text reads as, none when it is no JSON. -/
structure ApiKey where
  id : ℕ
  userId : ℕ
  keyHash : List Char
  name : List Char
  permissions : Option (List Scope)
  expiresAt : Option ℕ
  lastUsedAt : Option ℕ
  isActive : Bool

/-- What a verified key authenticates. -/
structure Identity where
  userId : ℕ
  user : User
  permissions : List Scope
  apiKeyId : ℕ
  apiKeyName : List Char

/-- What a stored scope is worth to the owner. -/
def matched (ownerPermissions : List Scope) (perm : Scope) : List Scope :=
  if ':' ∈ perm ∧ [':', '*'].isSuffixOf perm then
    ownerPermissions.filter fun p => p = perm ∨ category p = category perm
  else if hasPermission perm ownerPermissions then [perm]
  else []

/-- The scopes of a key, bound to the permissions of its owner. -/
def rebind (permissions ownerPermissions : List Scope) : List Scope :=
  if wildcard ∈ ownerPermissions then permissions
  else if wildcard ∈ permissions then ownerPermissions
  else permissions.foldl (fun rebound perm => addNew rebound (matched ownerPermissions perm)) []

/-- `verify_api_key`: the identity, and the keys with the time of use, which is not stored when the
commit fails. -/
def verifyApiKey (sha256 : List Char → List Char) (dir : Directory) (keys : List ApiKey) (now : ℕ)
    (commits : Bool) (key : List Char) : List ApiKey × Option Identity :=
  match keys.find? fun k => k.keyHash = sha256 key ∧ k.isActive with
  | none => (keys, none)
  | some apiKey =>
    if apiKey.expiresAt.any (· < now) then (keys, none)
    else match dir.users.find? fun u => u.id = apiKey.userId with
      | none => (keys, none)
      | some user =>
        if !user.active then (keys, none)
        else
          (if commits then
              keys.map fun k => if k.id = apiKey.id then { k with lastUsedAt := some now } else k
            else keys,
          some ⟨apiKey.userId, user,
            rebind (apiKey.permissions.getD []) (dir.getEffectivePermissions user), apiKey.id,
            apiKey.name⟩)

/-! ## Narrowing -/

/-- The scopes that a key is minted with: `action:resource`, `action:*` and `*`. -/
def IsScope (perm : Scope) : Prop :=
  perm = wildcard ∨
    ∃ action resource, ':' ∉ action ∧ ':' ∉ resource ∧ perm = action ++ ':' :: resource

section

variable {required perm p action resource : Scope} {permissions owner : List Scope}

/-- A scope ends like the scope of a whole action only if it is one. -/
theorem resource_of_isSuffixOf (haction : ':' ∉ action) (hresource : ':' ∉ resource)
    (h : [':', '*'].isSuffixOf (action ++ ':' :: resource) = true) : resource = ['*'] := by
  obtain ⟨before, hsplit⟩ := isSuffixOf_iff_suffix.mp h
  rcases append_eq_append_iff.mp hsplit with ⟨rest, haction', hrest⟩ | ⟨rest, -, hrest⟩
  · cases rest with
    | nil => simpa using hrest.symm
    | cons c rest =>
      obtain ⟨rfl, -⟩ := cons.inj hrest
      exact absurd (haction' ▸ mem_append_right before mem_cons_self) haction
  · cases rest with
    | nil => simpa using hrest
    | cons c rest =>
      obtain ⟨-, rfl⟩ := cons.inj hrest
      exact absurd (mem_append_right rest mem_cons_self) hresource

theorem mem_matched_action (haction : ':' ∉ action) :
    p ∈ matched owner (categoryWildcard action) ↔ p ∈ owner ∧ category p = action := by
  have hcategory : category (categoryWildcard action) = action := category_append haction ['*']
  have hform : ':' ∈ categoryWildcard action ∧ [':', '*'].isSuffixOf (categoryWildcard action) =
      true := ⟨mem_append_right _ mem_cons_self,
        isSuffixOf_iff_suffix.mpr (suffix_append ..)⟩
  rw [matched, if_pos hform, mem_filter, decide_eq_true_eq, hcategory]
  refine and_congr_right fun _ => ⟨?_, .inr⟩
  rintro (rfl | h)
  · exact hcategory
  · exact h

theorem matched_resource (haction : ':' ∉ action) (hresource : ':' ∉ resource)
    (hstar : resource ≠ ['*']) : matched owner (action ++ ':' :: resource) =
      if hasPermission (action ++ ':' :: resource) owner then [action ++ ':' :: resource] else [] :=
  if_neg fun hform => hstar (resource_of_isSuffixOf haction hresource hform.2)

/-- What a key is bound to, its owner may do, and the stored scopes say so. -/
theorem hasPermission_of_mem_matched (howner : AreScoped owner) (hwild : wildcard ∉ owner)
    (hscope : IsScope perm) (hperm : perm ∈ permissions) (hstored : wildcard ∉ permissions)
    (h : p ∈ matched owner perm) :
    p ≠ wildcard ∧ hasPermission p permissions = true ∧ hasPermission p owner = true := by
  obtain rfl | ⟨action, resource, haction, hresource, rfl⟩ := hscope
  · exact absurd hperm hstored
  by_cases hstar : resource = ['*']
  · subst hstar
    obtain ⟨hmem, hcategory⟩ := (mem_matched_action haction).mp h
    have hne : p ≠ wildcard := fun heq => hwild (heq ▸ hmem)
    refine ⟨hne, hasPermission_iff.mpr (.inr (.inr ⟨(howner p hmem).resolve_left hne, ?_⟩)),
      hasPermission_iff.mpr (.inr (.inl hmem))⟩
    rw [hcategory]
    exact hperm
  · rw [matched_resource haction hresource hstar] at h
    split at h
    · next hhas =>
      obtain rfl := mem_singleton.mp h
      exact ⟨fun heq => hstored (heq ▸ hperm), hasPermission_iff.mpr (.inr (.inl hperm)), hhas⟩
    · cases h

/-- What the stored scopes and the owner allow, the key is bound to. -/
theorem exists_matched (hscopes : ∀ s ∈ permissions, IsScope s) (hwild : wildcard ∉ owner)
    (hstored : wildcard ∉ permissions) (hkey : hasPermission required permissions = true)
    (hhas : hasPermission required owner = true) :
    ∃ perm ∈ permissions, required ∈ matched owner perm ∨
      ':' ∈ required ∧ categoryWildcard (category required) ∈ matched owner perm := by
  rcases hasPermission_iff.mp hhas with hall | howner
  · exact absurd hall hwild
  have hclean := colon_not_mem_category required
  have hcategory : category (categoryWildcard (category required)) = category required :=
    category_append hclean ['*']
  rcases hasPermission_iff.mp hkey with hall | hexact | ⟨hcolon, haction⟩
  · exact absurd hall hstored
  · refine ⟨required, hexact, ?_⟩
    obtain rfl | ⟨action, resource, haction, hresource, rfl⟩ := hscopes required hexact
    · exact absurd hexact hstored
    by_cases hstar : resource = ['*']
    · subst hstar
      have hself : category (action ++ ':' :: ['*']) = action := category_append haction ['*']
      rw [hself] at howner ⊢
      left
      refine (mem_matched_action haction).mpr ⟨?_, hself⟩
      exact howner.elim id And.right
    · left
      rw [matched_resource haction hresource hstar, if_pos hhas]
      exact mem_singleton.mpr rfl
  · refine ⟨_, haction, ?_⟩
    rcases howner with hmem | ⟨-, hmem⟩
    · exact .inl ((mem_matched_action hclean).mpr ⟨hmem, rfl⟩)
    · exact .inr ⟨hcolon, (mem_matched_action hclean).mpr ⟨hmem, hcategory⟩⟩

/-- The scopes of a key, once bound, allow exactly what they allow and the owner may do. -/
theorem hasPermission_rebind (hscopes : ∀ s ∈ permissions, IsScope s) (howner : AreScoped owner)
    (required : Scope) : hasPermission required (rebind permissions owner) = true ↔
      hasPermission required permissions = true ∧ hasPermission required owner = true := by
  unfold rebind
  split
  · next hall => simp [hasPermission_iff.mpr (.inl hall)]
  next hwild =>
  split
  · next hall => simp [hasPermission_iff.mpr (.inl hall)]
  next hstored =>
  generalize hrebound : permissions.foldl
    (fun rebound perm => addNew rebound (matched owner perm)) [] = rebound
  have hmem : ∀ {p}, p ∈ rebound ↔ ∃ perm ∈ permissions, p ∈ matched owner perm := by
    intro p
    rw [← hrebound, mem_foldl_addNew]
    simp
  have hsound : ∀ {p}, p ∈ rebound →
      p ≠ wildcard ∧ hasPermission p permissions = true ∧ hasPermission p owner = true := by
    intro p hp
    obtain ⟨perm, hperm, hp⟩ := hmem.mp hp
    exact hasPermission_of_mem_matched howner hwild (hscopes perm hperm) hperm hstored hp
  constructor
  · intro h
    rcases hasPermission_iff.mp h with hall | hexact | ⟨hcolon, haction⟩
    · exact absurd rfl (hsound hall).1
    · exact (hsound hexact).2
    · have hcategory : category (categoryWildcard (category required)) = category required :=
        category_append (colon_not_mem_category required) ['*']
      -- a scope of a whole action is held as such
      have hheld : ∀ {perms : List Scope},
          hasPermission (categoryWildcard (category required)) perms = true →
          hasPermission required perms = true := by
        intro perms hperms
        rw [hasPermission_iff, hcategory] at hperms
        rcases hperms with hall | hmem | ⟨-, hmem⟩
        · exact hasPermission_iff.mpr (.inl hall)
        · exact hasPermission_iff.mpr (.inr (.inr ⟨hcolon, hmem⟩))
        · exact hasPermission_iff.mpr (.inr (.inr ⟨hcolon, hmem⟩))
      exact ⟨hheld (hsound haction).2.1, hheld (hsound haction).2.2⟩
  · rintro ⟨hkey, hhas⟩
    obtain ⟨perm, hperm, hexact | ⟨hcolon, haction⟩⟩ :=
      exists_matched hscopes hwild hstored hkey hhas
    · exact hasPermission_iff.mpr (.inr (.inl (hmem.mpr ⟨perm, hperm, hexact⟩)))
    · exact hasPermission_iff.mpr (.inr (.inr ⟨hcolon, hmem.mpr ⟨perm, hperm, haction⟩⟩))

end

/-- A key authenticates its owner, and allows what its stored scopes and the current permissions of
the owner both allow. -/
theorem verifyApiKey_narrows (sha256 : List Char → List Char) (dir : Directory)
    (keys : List ApiKey) (now : ℕ) (commits : Bool) (key : List Char) {identity : Identity}
    (h : (verifyApiKey sha256 dir keys now commits key).2 = some identity) :
    ∃ apiKey ∈ keys, apiKey.keyHash = sha256 key ∧ apiKey.isActive = true ∧
      identity.apiKeyId = apiKey.id ∧ ∃ owner ∈ dir.users, owner.id = apiKey.userId ∧
        owner.active = true ∧ identity.user = owner ∧
        ((∀ s ∈ apiKey.permissions.getD [], IsScope s) → ∀ required,
          (hasPermission required identity.permissions = true ↔
            hasPermission required (apiKey.permissions.getD []) = true ∧
            hasPermission required (dir.getEffectivePermissions owner) = true)) := by
  unfold verifyApiKey at h
  split at h
  · cases h
  next apiKey hfind =>
  split at h
  · cases h
  split at h
  · cases h
  next owner howner =>
  split at h
  · cases h
  next hactive =>
  obtain rfl := Option.some.inj h
  have hfound : apiKey.keyHash = sha256 key ∧ apiKey.isActive = true := by
    simpa using find?_some hfind
  have hid : owner.id = apiKey.userId := by simpa using find?_some howner
  refine ⟨apiKey, mem_of_find?_eq_some hfind, hfound.1, hfound.2, rfl, owner,
    mem_of_find?_eq_some howner, hid, by simpa using hactive, rfl, ?_⟩
  intro hscopes required
  exact hasPermission_rebind hscopes (areScoped_effectivePermissions dir owner) required

/-! ## An example -/

/-- An owner who was an operator and is a viewer now. -/
def exampleDirectory : Directory :=
  ⟨[⟨7, "viewer".toList, none, true⟩], some [], some [], []⟩

def exampleKeys : List ApiKey :=
  [⟨1, 7, "key".toList, "ci".toList, some ["read:*".toList, "write:cas".toList], none, none, true⟩]

theorem viewer_key_reads_only :
    ∃ identity, (verifyApiKey id exampleDirectory exampleKeys 0 true "key".toList).2 =
        some identity ∧
      hasPermission "read:cas".toList identity.permissions = true ∧
      ¬ hasPermission "write:cas".toList identity.permissions = true := by
  obtain ⟨identity, hidentity⟩ : ∃ identity, (verifyApiKey id exampleDirectory exampleKeys 0 true
      "key".toList).2 = some identity := Option.isSome_iff_exists.mp (by decide +kernel)
  obtain ⟨apiKey, hkey, -, -, -, owner, howner, -, -, -, hnarrows⟩ :=
    verifyApiKey_narrows id exampleDirectory exampleKeys 0 true "key".toList hidentity
  obtain rfl := mem_singleton.mp hkey
  obtain rfl := mem_singleton.mp howner
  have hscopes : ∀ s ∈ ["read:*".toList, "write:cas".toList], IsScope s := by
    intro s hs
    rcases mem_cons.mp hs with rfl | hs
    · exact .inr ⟨"read".toList, ['*'], by decide, by decide, by decide⟩
    · obtain rfl := mem_singleton.mp hs
      exact .inr ⟨"write".toList, "cas".toList, by decide, by decide, by decide⟩
  refine ⟨identity, hidentity, (hnarrows hscopes _).mpr (by decide +kernel), fun hwrite => ?_⟩
  exact absurd ((hnarrows hscopes _).mp hwrite).2 (by decide +kernel)

end UltimateCaManager.Auth
