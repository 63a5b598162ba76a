import UltimateCaManager.AcmeProofOfControl
import UltimateCaManager.AcmeSingleCertificate
import UltimateCaManager.EabConfinement
import UltimateCaManager.CrlOcspAgreement
import UltimateCaManager.CrlNumbers
import UltimateCaManager.DeltaCompleteness
import UltimateCaManager.OcspFreshness
import UltimateCaManager.AuditTamperEvidence
import UltimateCaManager.AuditBinding
import UltimateCaManager.DnsUpdateReplay
import UltimateCaManager.DnsUpdateAmplification
import UltimateCaManager.ApiKeys
import UltimateCaManager.OutboundRequests
import UltimateCaManager.AdminAllowlist
import UltimateCaManager.RateLimiter
import UltimateCaManager.TlsProbe
import UltimateCaManager.SchedulerLock
import UltimateCaManager.ClientOrders
import UltimateCaManager.PolicyScope
import UltimateCaManager.ApprovalGate
import UltimateCaManager.RelatedRequests
import UltimateCaManager.EncryptionSwitch
import UltimateCaManager.SshSerials
import UltimateCaManager.RestoreFiles
import UltimateCaManager.RestoreSession
import UltimateCaManager.BackupReferences
import UltimateCaManager.BackupInflate
import UltimateCaManager.EabScope
import UltimateCaManager.AcmeCsrNames
import UltimateCaManager.AcmeRenewals
import UltimateCaManager.AcmeDeactivation
import UltimateCaManager.ScepTransactions
import UltimateCaManager.CrlDeployment
import UltimateCaManager.WstepSignature
import UltimateCaManager.LeafCertificates
import UltimateCaManager.AcmeProxyIsolation
import UltimateCaManager.CrlEntryList
import UltimateCaManager.CaChains
import UltimateCaManager.HoldLifting
import UltimateCaManager.ProcessLock
