import Mathlib.Data.List.TakeWhile
import UltimateCaManager.Tables

/-!
# Permissions

Scopes are texts: `action:resource`, `action:*` for every resource of an action, and `*` for
everything. The effective permissions of a user come from the built-in role, the custom role with
the roles that it inherits from, and the groups.
-/
namespace UltimateCaManager.Auth

open List

abbrev Scope := List Char

def wildcard : Scope := ['*']

/-- The text before the first colon: `perm.split(':', 1)[0]`. -/
def category (perm : Scope) : Scope := perm.takeWhile (· ≠ ':')

def categoryWildcard (action : Scope) : Scope := action ++ [':', '*']

def hasPermission (required : Scope) (userPermissions : List Scope) : Bool :=
  wildcard ∈ userPermissions ∨ required ∈ userPermissions ∨
    ':' ∈ required ∧ categoryWildcard (category required) ∈ userPermissions

theorem hasPermission_iff {required : Scope} {perms : List Scope} :
    hasPermission required perms = true ↔ wildcard ∈ perms ∨ required ∈ perms ∨
      ':' ∈ required ∧ categoryWildcard (category required) ∈ perms := by
  simp [hasPermission]

theorem colon_not_mem_category (perm : Scope) : ':' ∉ category perm := by
  intro h
  simpa using mem_takeWhile_imp h

theorem category_append {action : Scope} (haction : ':' ∉ action) (resource : List Char) :
    category (action ++ ':' :: resource) = action := by
  have hkept : ∀ c ∈ action, decide (c ≠ ':') = true := by
    intro c hc
    have hne : c ≠ ':' := fun h => haction (h ▸ hc)
    simpa using hne
  rw [category, takeWhile_append_of_pos hkept]
  simp

/-- What the loops over granted scopes do: a scope is added once. -/
def addNew (granted perms : List Scope) : List Scope :=
  perms.foldl (fun granted p => if p ∈ granted then granted else granted ++ [p]) granted

theorem mem_addNew {granted perms : List Scope} {p : Scope} :
    p ∈ addNew granted perms ↔ p ∈ granted ∨ p ∈ perms := by
  simp [addNew, Tables.mem_foldl_insert]

/-- What a loop grants step by step was granted by one of its steps. -/
theorem mem_foldl_addNew {α : Type} {f : α → List Scope} {l : List α} {granted : List Scope}
    {p : Scope} : p ∈ l.foldl (fun granted a => addNew granted (f a)) granted ↔
      p ∈ granted ∨ ∃ a ∈ l, p ∈ f a := by
  induction l generalizing granted with
  | nil => simp
  | cons a l ih => simp [ih, mem_addNew, or_assoc]

/-! ## Tables -/

def operatorPermissions : List Scope := [
  "read:certificates", "write:certificates",
  "read:user_certificates", "write:user_certificates", "delete:user_certificates",
  "read:cas", "write:cas",
  "read:csrs", "write:csrs", "delete:csrs",
  "read:templates",
  "read:truststore", "write:truststore",
  "read:crl", "write:crl",
  "read:acme", "write:acme", "delete:acme",
  "read:scep", "read:est", "read:xcep", "read:wstep", "read:kerberos", "read:ad_connector",
  "read:hsm",
  "read:ssh", "write:ssh", "delete:ssh",
  "read:ssh_cas", "write:ssh_cas", "delete:ssh_cas",
  "read:policies", "read:approvals", "write:approvals",
  "read:key_recovery", "write:key_recovery",
  "read:audit",
  "read:settings", "write:settings",
  "read:groups", "write:groups"].map String.toList

def auditorPermissions : List Scope := [
  "read:certificates", "read:user_certificates", "read:cas", "read:csrs", "read:templates",
  "read:truststore", "read:crl", "read:acme", "read:scep", "read:est", "read:xcep", "read:wstep",
  "read:kerberos", "read:ad_connector", "read:hsm", "read:ssh", "read:ssh_cas", "read:policies",
  "read:approvals", "read:audit", "read:groups"].map String.toList

def viewerPermissions : List Scope := [
  "read:certificates", "read:user_certificates", "read:cas", "read:csrs", "read:templates",
  "read:truststore", "read:ssh", "read:ssh_cas"].map String.toList

def rolePermissions : List (List Char × List Scope) := [
  ("admin".toList, [wildcard]), ("operator".toList, operatorPermissions),
  ("auditor".toList, auditorPermissions), ("viewer".toList, viewerPermissions)]

def getRolePermissions (role : List Char) : List Scope := (rolePermissions.lookup role).getD []

/-- `GROUP_GRANTABLE_PERMISSIONS`, in the order of the roles. -/
def groupGrantablePermissions : List Scope :=
  (rolePermissions.flatMap Prod.snd).filter fun perm =>
    ':' ∈ perm ∧ ¬ "admin:".toList.isPrefixOf perm

def customRoleGrantablePermissions : List Scope := [
  "read:acme", "write:acme", "delete:acme",
  "read:ad_connector",
  "read:approvals", "write:approvals",
  "read:audit", "export:audit",
  "read:cas", "write:cas", "delete:cas",
  "read:certificates", "write:certificates", "delete:certificates",
  "read:crl", "write:crl",
  "read:csrs", "write:csrs", "delete:csrs",
  "read:est", "write:est",
  "read:groups", "write:groups", "delete:groups",
  "read:hsm", "delete:hsm",
  "read:kerberos", "write:kerberos",
  "read:key_recovery", "write:key_recovery",
  "read:policies", "write:policies", "delete:policies",
  "read:private_keys",
  "read:scep", "write:scep",
  "read:settings", "write:settings", "delete:settings",
  "read:ssh", "write:ssh", "delete:ssh",
  "read:ssh_cas", "write:ssh_cas", "delete:ssh_cas",
  "read:templates", "write:templates", "delete:templates",
  "read:truststore", "write:truststore", "delete:truststore",
  "read:user_certificates", "write:user_certificates", "delete:user_certificates",
  "read:users",
  "read:wstep", "write:wstep",
  "read:xcep", "write:xcep"].map String.toList

def legacyResourceAliases : List (List Char × List Char) :=
  [("certs".toList, "certificates".toList)]

def normalizePermission (perm : Scope) : Scope :=
  if ':' ∈ perm then
    let resource := (perm.dropWhile (· ≠ ':')).drop 1
    category perm ++ ':' :: (legacyResourceAliases.lookup resource).getD resource
  else perm

/-! ## Users, roles and groups -/

structure CustomRole where
  id : ℕ
  permissions : List Scope
  inheritsFrom : Option ℕ

structure Group where
  id : ℕ
  permissions : List Scope

structure User where
  id : ℕ
  role : List Char
  customRoleId : Option ℕ
  active : Bool

/-- The tables that permissions are read from; a table that cannot be read grants nothing. -/
structure Directory where
  users : List User
  customRoles : Option (List CustomRole)
  groups : Option (List Group)
  /-- Group and user. -/
  members : List (ℕ × ℕ)

def maxRoleDepth : ℕ := 64

namespace Directory

/-- `custom_role_chain`: the role and the roles above it, to a cycle or to a depth. -/
def customRoleChain (roles : List CustomRole) :
    ℕ → List ℕ → Option CustomRole → List CustomRole
  | 0, _, _ => []
  | _, _, none => []
  | depth + 1, seen, some role =>
    if role.id ∈ seen then []
    else role :: customRoleChain roles depth (role.id :: seen)
      (role.inheritsFrom.bind fun id => roles.find? fun r => r.id = id)

def customRolePermissions (roles : List CustomRole) (role : Option CustomRole) : List Scope :=
  (customRoleChain roles maxRoleDepth [] role).foldl (fun granted link =>
    addNew granted ((link.permissions.map normalizePermission).filter
      (· ∈ customRoleGrantablePermissions))) []

/-- `get_custom_role_permissions`; the id 0 is no role. -/
def getCustomRolePermissions (dir : Directory) (user : User) : List Scope :=
  match user.customRoleId, dir.customRoles with
  | some id, some roles =>
    if id = 0 then [] else customRolePermissions roles (roles.find? fun r => r.id = id)
  | _, _ => []

def getGroupPermissions (dir : Directory) (user : User) : List Scope :=
  match dir.groups with
  | none => []
  | some groups => (groups.filter fun g => (g.id, user.id) ∈ dir.members).foldl (fun granted g =>
      addNew granted (g.permissions.filter (· ∈ groupGrantablePermissions))) []

def getEffectivePermissions (dir : Directory) (user : User) : List Scope :=
  let perms := getRolePermissions user.role
  if wildcard ∈ perms then perms
  else
    let perms := perms ++ (dir.getCustomRolePermissions user).filter (· ∉ perms)
    perms ++ (dir.getGroupPermissions user).filter (· ∉ perms)

end Directory

/-! ## The shape of effective permissions -/

/-- Every scope but the wildcard names an action and a resource. -/
def AreScoped (perms : List Scope) : Prop := ∀ p ∈ perms, p = wildcard ∨ ':' ∈ p
  deriving Decidable

theorem areScoped_rolePermissions (role : List Char) : AreScoped (getRolePermissions role) := by
  have htable : ∀ entry ∈ rolePermissions, AreScoped entry.2 := by decide +kernel
  unfold getRolePermissions
  cases hrole : rolePermissions.lookup role with
  | none => exact nofun
  | some perms =>
    obtain ⟨before, after, hsplit, -⟩ := lookup_eq_some_iff.mp hrole
    have hmem : (role, perms) ∈ rolePermissions := by
      rw [hsplit]
      exact mem_append_right _ mem_cons_self
    exact htable _ hmem

theorem areScoped_customRoleGrantable : AreScoped customRoleGrantablePermissions := by
  decide +kernel

theorem areScoped_groupGrantable : AreScoped groupGrantablePermissions := by
  intro p hp
  have hcolon := (mem_filter.mp hp).2
  simp only [decide_eq_true_eq] at hcolon
  exact .inr hcolon.1

theorem customRole_grantable {dir : Directory} {user : User} {p : Scope}
    (hp : p ∈ dir.getCustomRolePermissions user) : p ∈ customRoleGrantablePermissions := by
  unfold Directory.getCustomRolePermissions at hp
  split at hp
  · split at hp
    · cases hp
    · rcases mem_foldl_addNew.mp hp with hp | ⟨link, -, hp⟩
      · cases hp
      · simpa using (mem_filter.mp hp).2
  · cases hp

theorem group_grantable {dir : Directory} {user : User} {p : Scope}
    (hp : p ∈ dir.getGroupPermissions user) : p ∈ groupGrantablePermissions := by
  unfold Directory.getGroupPermissions at hp
  split at hp
  · cases hp
  · rcases mem_foldl_addNew.mp hp with hp | ⟨g, -, hp⟩
    · cases hp
    · simpa using (mem_filter.mp hp).2

theorem areScoped_effectivePermissions (dir : Directory) (user : User) :
    AreScoped (dir.getEffectivePermissions user) := by
  intro p hp
  unfold Directory.getEffectivePermissions at hp
  simp only at hp
  split at hp
  · exact areScoped_rolePermissions user.role p hp
  · rcases mem_append.mp hp with hp | hp
    · rcases mem_append.mp hp with hp | hp
      · exact areScoped_rolePermissions user.role p hp
      · exact areScoped_customRoleGrantable p (customRole_grantable (mem_filter.mp hp).1)
    · exact areScoped_groupGrantable p (group_grantable (mem_filter.mp hp).1)

end UltimateCaManager.Auth
