import Mathlib.Data.List.Basic

/-!
# The sections of a backup

The manifest names, for each section of an archive, the columns that identify a row across two
installations and the columns that hold the number of a row of another section. A section is
restored from the manifest alone or by a restorer of its own, which may look its rows up by other
columns, pass rows over or write what the archive holds as it stands. The sections that are not
lists of rows are left out.
-/
namespace UltimateCaManager.Backup

/-- How the row here that an archived row is applied to is found: by the index of the plan
(`apply_section`), by a query over the columns given, by `_existing_row` with the resolved
identity, or as the one row of the table. -/
inductive Restorer
  | manifest
  | queried (columns : List String)
  | identified
  | only
  deriving DecidableEq

inductive SectionName
  | users | certificateAuthorities | certificates | revokedSerials | groups | customRoles
  | rolePermissions | certificateTemplates | caTemplatePins | caCrossCertificates
  | trustedCertificates | ssoProviders | hsmProviders | hsmKeys | apiKeys | authCertificates
  | smtpConfig | notificationConfig | certificatePolicies | approvalRequests | dnsProviders
  | acmeAccounts | acmeEabCredentials | acmeDomains | acmeLocalDomains | acmeClientAccounts
  | acmeClientOrders | acmeDnsUpdateKeys | sshCas | sshCertificates | microsoftCas | mscaRequests
  | intuneApps | scepProfiles | adConnector | webhookEndpoints | deployTargets | deployBindings
  | crlDeployBindings | scanProfiles | scanRuns | discoveredCertificates | scepRequests
  | keyRecoveryRequests | auditLogs | groupMembers | webauthnCredentials
  deriving DecidableEq

/-- What the restore reads of a section. The identity of a section that holds one row for the
whole installation, `('id',)` in the source, is never compared and is empty here. -/
structure Section where
  identity : List String
  restorer : Restorer
  references : List (String × SectionName) := []
  /-- The references that hold no NULL. -/
  required : List String := []
  /-- The references that stop the restore when the archive names a row that is not here. -/
  placed : List String := []
  /-- The columns of the identity that hold NULL. -/
  optional : List String := []
  /-- The columns without which a row is passed over. -/
  needs : List String := []
  /-- The column that names an authority; the row of an unknown one is passed over. -/
  issuer : Option String := none
  /-- The references that a row here takes with the numbers of the source; a new row takes all. -/
  verbatim : Option (List String) := none

namespace Section

/-- A section that holds one row for the whole installation. -/
def singleton (sec : Section) : Bool := sec.identity.isEmpty

theorem identity_of_singleton {sec : Section} (h : sec.singleton = true) : sec.identity = [] :=
  List.isEmpty_iff.mp h

/-- `_identified_by_a_reference`. -/
def byReference (sec : Section) : Bool :=
  sec.identity.any fun f => (sec.references.lookup f).isSome

/-- The columns that the rows are looked up by. -/
def columns (sec : Section) : List String :=
  match sec.restorer with
  | .queried columns => columns
  | _ => sec.identity

/-- A section whose restorer asks for the row with the same identity. -/
def own (identity : List String) (references : List (String × SectionName) := [])
    (required : List String := []) : Section :=
  { identity, restorer := .queried identity, references, required }

/-- A section restored from the manifest alone. -/
def listed (identity : List String) (references : List (String × SectionName) := [])
    (required : List String := []) (optional : List String := []) : Section :=
  { identity, restorer := .manifest, references, required, optional }

end Section

open SectionName Section

def sections : SectionName → Section
  | users => own ["username"] [("custom_role_id", customRoles), ("sso_provider_id", ssoProviders)]
  | certificateAuthorities => own ["refid"] [("hsm_key_id", hsmKeys), ("owner_group_id", groups)]
  | certificates => own ["refid"]
      [("template_id", certificateTemplates), ("owner_group_id", groups)]
  | revokedSerials =>
      { own ["caref", "serial_number"] [("certificate_id", certificates)] with
        issuer := some "caref" }
  | groups => own ["name"]
  | customRoles => own ["name"] [("inherits_from", customRoles)]
  | rolePermissions => listed ["role_id", "permission"] [("role_id", customRoles)] ["role_id"]
  | certificateTemplates => own ["name"]
  | caTemplatePins => listed ["ca_id", "template_id"]
      [("ca_id", certificateAuthorities), ("template_id", certificateTemplates)]
      ["ca_id", "template_id"]
  | caCrossCertificates => listed ["fingerprint_sha256"] [("ca_id", certificateAuthorities)]
      ["ca_id"]
  | trustedCertificates => own ["fingerprint_sha256"]
  | ssoProviders => own ["name"]
  | hsmProviders => own ["name"] [("created_by", users)]
  | hsmKeys =>
      { identity := ["provider_id", "key_identifier"], restorer := .identified
        references := [("provider_id", hsmProviders)], required := ["provider_id"] }
  | apiKeys => own ["key_hash"] [("user_id", users)] ["user_id"]
  | authCertificates =>
      { identity := ["cert_fingerprint"], restorer := .queried ["cert_serial"]
        references := [("user_id", users)], required := ["user_id"]
        optional := ["cert_fingerprint"] }
  | smtpConfig => { identity := [], restorer := .only }
  | notificationConfig => own ["type"]
  | certificatePolicies => own ["name"]
      [("ca_id", certificateAuthorities), ("template_id", certificateTemplates),
        ("approval_group_id", groups)]
  | approvalRequests =>
      { identity := ["certificate_id", "created_at"], restorer := .identified
        references := [("certificate_id", certificates), ("policy_id", certificatePolicies),
          ("requester_id", users)]
        placed := ["certificate_id", "requester_id"], optional := ["certificate_id"] }
  | dnsProviders => own ["name"]
  | acmeAccounts =>
      { own ["account_id"] with needs := ["account_id", "jwk_thumbprint", "jwk"] }
  | acmeEabCredentials =>
      { own ["kid"] [("created_by_user_id", users), ("revoked_by_user_id", users)] with
        needs := ["kid", "hmac_key_b64"], verbatim := some ["revoked_by_user_id"] }
  | acmeDomains => own ["domain"]
      [("dns_provider_id", dnsProviders), ("issuing_ca_id", certificateAuthorities)]
      ["dns_provider_id"]
  | acmeLocalDomains => own ["domain"] [("issuing_ca_id", certificateAuthorities)]
      ["issuing_ca_id"]
  | acmeClientAccounts => listed ["directory_url", "email", "label"]
  | acmeClientOrders =>
      { identity := ["order_url"], restorer := .identified
        references := [("dns_provider_id", dnsProviders),
          ("acme_client_account_id", acmeClientAccounts), ("certificate_id", certificates),
          ("source_certificate_id", certificates)]
        optional := ["order_url"] }
  | acmeDnsUpdateKeys => listed ["name"]
      [("acme_client_account_id", acmeClientAccounts), ("eab_credential_id", acmeEabCredentials),
        ("created_by_user_id", users)] ["acme_client_account_id"]
  | sshCas =>
      { identity := ["refid"], restorer := .identified, references := [("owner_group_id", groups)] }
  | sshCertificates =>
      { identity := ["serial", "ssh_ca_id"], restorer := .identified
        references := [("ssh_ca_id", sshCas), ("owner_group_id", groups)]
        required := ["ssh_ca_id"] }
  | microsoftCas => { identity := ["name"], restorer := .identified }
  | mscaRequests => listed ["msca_id", "request_id"]
      [("msca_id", microsoftCas), ("cert_id", certificates), ("csr_id", certificates)]
      ["msca_id"] ["request_id"]
  | intuneApps => listed ["name"]
  | scepProfiles => listed ["name"]
      [("template_id", certificateTemplates), ("intune_app_id", intuneApps)]
  | adConnector => listed []
  | webhookEndpoints => listed ["name"]
  | deployTargets => listed ["name"]
  | deployBindings => listed ["target_id", "certificate_id"]
      [("target_id", deployTargets), ("certificate_id", certificates)]
      ["target_id", "certificate_id"]
  | crlDeployBindings => listed ["target_id", "ca_id"]
      [("target_id", deployTargets), ("ca_id", certificateAuthorities)] ["target_id", "ca_id"]
  | scanProfiles => { identity := ["name"], restorer := .identified }
  | scanRuns => listed ["scan_profile_id", "started_at"] [("scan_profile_id", scanProfiles)] []
      ["scan_profile_id", "started_at"]
  | discoveredCertificates => listed ["fingerprint_sha256", "target", "port"]
      [("scan_profile_id", scanProfiles), ("ucm_certificate_id", certificates)] []
      ["fingerprint_sha256"]
  | scepRequests => listed ["transaction_id"]
  | keyRecoveryRequests => listed ["cert_refid", "requested_at"] [("cert_id", certificates)]
      ["cert_id"] ["cert_refid"]
  | auditLogs => listed ["entry_hash"] [] [] ["entry_hash"]
  | groupMembers => listed ["group_id", "user_id"] [("group_id", groups), ("user_id", users)]
      ["group_id", "user_id"]
  | webauthnCredentials => listed ["credential_id"] [("user_id", users)] ["user_id"]

/-- The order of `_apply_all`, its generic sections last. -/
def restoreOrder : List SectionName :=
  [users, certificateAuthorities, certificates, revokedSerials, acmeAccounts, acmeEabCredentials,
    groups, customRoles, certificateTemplates, trustedCertificates, ssoProviders, hsmProviders,
    apiKeys, authCertificates, smtpConfig, notificationConfig, certificatePolicies, dnsProviders,
    acmeDomains, acmeLocalDomains, sshCas, sshCertificates, microsoftCas, scanProfiles, hsmKeys,
    approvalRequests, acmeClientOrders, rolePermissions, groupMembers, webauthnCredentials,
    adConnector, webhookEndpoints, deployTargets, caCrossCertificates, deployBindings,
    crlDeployBindings, intuneApps, scepProfiles, caTemplatePins, acmeClientAccounts,
    acmeDnsUpdateKeys, keyRecoveryRequests, auditLogs, discoveredCertificates, mscaRequests,
    scanRuns, scepRequests]

theorem mem_restoreOrder (n : SectionName) : n ∈ restoreOrder := by
  cases n <;> decide

theorem mem_of_lookup {l : List (String × SectionName)} {c : String} {t : SectionName}
    (h : l.lookup c = some t) : (c, t) ∈ l := by
  obtain ⟨l₁, l₂, rfl, -⟩ := List.lookup_eq_some_iff.mp h
  simp

/-! ## What the restore relies on in the manifest -/

variable {n t : SectionName} {f : String}

/-- A section is restored once, and after those that its identity points at. -/
theorem pairwise_restoreOrder : restoreOrder.Pairwise fun n m =>
    n ≠ m ∧ ∀ p ∈ (sections n).references, p.1 ∈ (sections n).identity → p.2 ≠ m := by
  decide +kernel

/-- An identity points at other sections, which are identified by values, and each way to find a
row presupposes something of the identity. -/
theorem manifest_facts : ∀ n ∈ restoreOrder,
    (∀ p ∈ (sections n).references, p.1 ∈ (sections n).identity →
      p.2 ≠ n ∧ (sections p.2).byReference = false) ∧
    ((sections n).verbatim ≠ none → (sections n).byReference = false) ∧
    (match (sections n).restorer with
      | .manifest => true
      | .queried _ => !(sections n).byReference
      | .identified => !(sections n).singleton
      | .only => (sections n).singleton) = true := by
  decide +kernel

theorem plain_of_identity (hf : f ∈ (sections n).identity)
    (ht : (sections n).references.lookup f = some t) : t ≠ n ∧ (sections t).byReference = false :=
  (manifest_facts n (mem_restoreOrder n)).1 (f, t) (mem_of_lookup ht) hf

end UltimateCaManager.Backup
