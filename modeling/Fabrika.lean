import Fabrika.Db.JobWakesProofs
import Fabrika.Db.ScopeProofs
import Fabrika.Control.ProbePrefixes
import Fabrika.Control.AccessProofs
import Fabrika.Control.PublishProofs
import Fabrika.App.ConsistentProofs
import Fabrika.Platform.UuidProofs
import Fabrika.Platform.PlaceholdersProofs
import Fabrika.Db.SqlTemplateProofs
import Fabrika.App.ImportRuns
import Fabrika.Control.LeaseProofs
import Fabrika.Control.VaultProofs
import Fabrika.Iam.MemberRolesProofs
import Fabrika.Iam.SessionsProofs
import Fabrika.Iam.OAuthProofs
import Fabrika.Control.MailRelayProofs
import Fabrika.Control.MailContentProofs
import Fabrika.Platform.JobQueueProofs
import Fabrika.Proxy.SignOut
import Fabrika.Proxy.CacheProofs
import Fabrika.AuthCore.CanonicalProofs
import Fabrika.App.ParamsProofs
import Fabrika.Db.KeysetProofs
import Fabrika.Operations.IngestRuns
import Fabrika.Operations.HealthProofs
import Fabrika.Proxy.Cookies
import Fabrika.AuthCore.PathReadings
import Fabrika.AuthCore.Sha256Proofs
import Fabrika.Db.TemporalProofs
import Fabrika.Db.JsonColumnProofs
import Fabrika.AuthCore.TokenReadings
import Fabrika.App.ClientAddressProofs
import Fabrika.App.TokensProofs
import Fabrika.App.ConnectProofs
import Fabrika.Control.SchemaDiffProofs
import Fabrika.App.MultipartFormat
import Fabrika.Platform.MigrationManifestProofs
import Fabrika.App.ScheduleProofs
import Fabrika.Proxy.ForwardedKey
import Fabrika.Control.TarProofs
